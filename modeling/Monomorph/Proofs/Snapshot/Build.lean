import Monomorph.Proofs.Session.Loading
import Monomorph.Proofs.Snapshot.Meaning

/-!
# Monomorph.Proofs.Snapshot.Build

A snapshot that builds gets the definitions that it declares, and the requests that it makes.

The types come first, without their contents. Then the fields and methods of one type after the
other are added, and what was declared before keeps its meaning, since definitions only grow. The
parameters of a method belong to the number that the method is about to get.

* `Metadata.addContents_ok`: the contents of a type are added behind those it has.
* `Metadata.Holds.addContents`: one type more has its contents, and the others stay.
* `Snapshot.build_wellScoped`: so every declaration is there under its number, and no signature
  mentions anything but definitions and parameters of its own method.
-/

namespace Monomorph

theorem exists_of_forall₂_append {α β : Type} {R : α → β → Prop} {xs ys : List α} {zs : List β}
    (h : List.Forall₂ R (xs ++ ys) zs) :
    ∃ us vs, zs = us ++ vs ∧ List.Forall₂ R xs us ∧ List.Forall₂ R ys vs := by
  refine ⟨zs.take xs.length, zs.drop xs.length, (List.take_append_drop _ _).symm, ?_, ?_⟩
  · simpa using List.forall₂_take xs.length h
  · simpa using List.forall₂_drop xs.length h

/-- Steps that each add one thing add all of them, in order. What holds of a thing has to survive
the later steps. -/
theorem foldlM_adds {ε σ δ α : Type} {step : σ → δ → Except ε σ} {f : σ → List α → σ}
    {I : σ → Prop} {R : σ → δ → α → Prop} (hnil : ∀ m, f m [] = m)
    (happend : ∀ m xs ys, f (f m xs) ys = f m (xs ++ ys))
    (hstep : ∀ m d n, I m → step m d = .ok n →
      I n ∧ (∃ x, n = f m [x] ∧ R n d x) ∧ ∀ e y, R m e y → R n e y)
    {ds : List δ} {m n : σ} (hm : I m) (h : ds.foldlM step m = .ok n) :
    I n ∧ ∃ xs, n = f m xs ∧ List.Forall₂ (R n) ds xs := by
  induction ds using List.reverseRecOn generalizing n with
  | nil =>
    cases h
    exact ⟨hm, [], (hnil m).symm, .nil⟩
  | append_singleton ds d ih =>
    rw [List.foldlM_append] at h
    obtain ⟨m₁, h₁, h⟩ := exists_of_bind_ok h
    obtain ⟨n', hn, h⟩ := exists_of_bind_ok h
    cases h
    obtain ⟨hm₁, xs, hadd, hxs⟩ := ih h₁
    obtain ⟨hn₁, ⟨x, rfl, hx⟩, hmono⟩ := hstep m₁ d n hm₁ hn
    refine ⟨hn₁, xs ++ [x], ?_, ?_⟩
    · rw [hadd, happend]
    · exact List.rel_append (hxs.imp hmono) (.cons hx .nil)

namespace Metadata

/-- The metadata with more fields and methods for one of the types. -/
def withContents (m : Metadata) (type : TypeDefId) (fields : List FieldDef)
    (methods : List MethodDef) : Metadata :=
  { m.withType type fun t => { t with
      fields := t.fields ++ fields, methods := t.methods ++ methods.map MethodDef.id } with
    methods := m.methods ++ methods }

theorem withContents_nil (m : Metadata) (type : TypeDefId) : m.withContents type [] [] = m := by
  have hid : (fun t : TypeDef => { t with
      fields := t.fields ++ [], methods := t.methods ++ [].map MethodDef.id }) = id := by
    funext t
    simp
  rw [withContents, withType, hid, List.modify_id, List.append_nil]

theorem withContents_withContents (m : Metadata) (type : TypeDefId) (fields fields' : List FieldDef)
    (methods methods' : List MethodDef) :
    (m.withContents type fields methods).withContents type fields' methods' =
      m.withContents type (fields ++ fields') (methods ++ methods') := by
  simp [withContents, withType, List.modify_modify_eq, Function.comp_def]

variable {m n : Metadata} {type : TypeDefId}

theorem addFieldDecl_ok (hm : m.Indexed) {d : FieldDecl} (h : addFieldDecl type m d = .ok n) :
    ∃ f, n = m.withContents type [f] [] ∧ d.Declares m type f := by
  obtain ⟨s, hs, h⟩ := exists_of_bind_ok h
  refine ⟨_, ?_, ⟨NamedSig.means_of_sigOf hm _ _ hs⟩⟩
  rw [addField_ok h]
  simp [withContents, withType]

theorem addMethodDecl_ok (hm : m.Indexed) {d : MethodDecl} (h : addMethodDecl type m d = .ok n) :
    ∃ x, n = m.withContents type [] [x] ∧ d.Declares m type x := by
  obtain ⟨sig, hsig, h⟩ := exists_of_bind_ok h
  obtain ⟨body, hbody, h⟩ := exists_of_bind_ok h
  obtain ⟨⟨n', id⟩, hn, h⟩ := exists_of_bind_ok h
  cases h
  obtain ⟨rfl, rfl⟩ := addMethod_ok hn
  refine ⟨_, ?_, MethodDecl.declares hm hsig hbody⟩
  simp [withContents, withType, nextMethodId]

theorem addContents_ok (hm : m.Indexed) {d : TypeDecl} (h : m.addContents (d, type) = .ok n) :
    n.Indexed ∧ m.Grows n ∧ ∃ fields methods, n = m.withContents type fields methods ∧
      List.Forall₂ (FieldDecl.Declares n type) d.fields fields ∧
      List.Forall₂ (MethodDecl.Declares n type) d.methods methods := by
  have hreach := reaches_addContents (c := ∅) h
  obtain ⟨m₁, h₁, h₂⟩ := exists_of_bind_ok h
  obtain ⟨hm₁, fields, hf, hfields⟩ := foldlM_adds (I := Indexed)
    (R := fun n => FieldDecl.Declares n type) (f := fun m fields => m.withContents type fields [])
    (fun m => m.withContents_nil type) (fun m xs ys => m.withContents_withContents type xs ys [] [])
    (fun m d n hm h => by
      have hr := reaches_addFieldDecl (c := ∅) h
      obtain ⟨f, hn, hf⟩ := addFieldDecl_ok hm h
      exact ⟨hr.indexed hm, ⟨f, hn, hf.mono hr.grows.metadata⟩,
        fun e y hy => hy.mono hr.grows.metadata⟩) hm h₁
  obtain ⟨hn, methods, hx, hmethods⟩ := foldlM_adds (I := Indexed)
    (R := fun n => MethodDecl.Declares n type)
    (f := fun m methods => m.withContents type [] methods)
    (fun m => m.withContents_nil type) (fun m xs ys => m.withContents_withContents type [] [] xs ys)
    (fun m d n hm h => by
      have hr := reaches_addMethodDecl (c := ∅) h
      obtain ⟨x, hn, hx⟩ := addMethodDecl_ok hm h
      exact ⟨hr.indexed hm, ⟨x, hn, hx.mono hr.grows.metadata⟩,
        fun e y hy => hy.mono hr.grows.metadata⟩) hm₁ h₂
  have hg := (Session.reaches_of_foldlM (fun m => ⟨m, ∅⟩) reaches_addMethodDecl h₂).grows.metadata
  refine ⟨hn, hreach.grows.metadata, fields, methods, ?_, hfields.imp fun _ _ hf => hf.mono hg,
    hmethods⟩
  rw [hx, hf, withContents_withContents, List.append_nil, List.nil_append]

end Metadata

/-- The declaration without its fields and methods. -/
def TypeDecl.heading (d : TypeDecl) : TypeDecl :=
  { d with fields := [], methods := [] }

namespace Metadata

variable {m n : Metadata}

/-- The types of the metadata are the declared ones, under their numbers, and the methods of all
types are numbered one after the other. -/
structure Holds (m : Metadata) (ds : List TypeDecl) : Prop where
  indexed : m.Indexed
  types : List.Forall₂ (TypeDecl.Declares m) ds m.types
  methods : m.types.flatMap TypeDef.methods = m.methods.map MethodDef.id

theorem Indexed.methodDef_of_mem (hm : m.Indexed) {x : MethodDef} (hx : x ∈ m.methods) :
    m.methodDef x.id = .ok x := by
  obtain ⟨k, hk⟩ := List.mem_iff_getElem?.1 hx
  have hid : x.id = k := hm.methodId hk
  rw [hid, methodDef_eq_ok_iff]
  exact hk

/-! ### Types -/

theorem eq_of_heading {d : TypeDecl} {t : TypeDef} (h : d.heading.Declares m t) :
    t = ⟨t.id, d.nameSpace, d.name, d.corlib, d.valueType, d.genericParams, [], []⟩ := by
  obtain ⟨hf, hx, _⟩ := h
  cases hf
  cases hx
  rfl

theorem methods_of_headings {ds : List TypeDecl} {ts : List TypeDef}
    (h : List.Forall₂ (TypeDecl.Declares m) (ds.map TypeDecl.heading) ts) :
    ts.flatMap TypeDef.methods = [] := by
  rw [List.flatMap_eq_nil_iff]
  intro t ht
  obtain ⟨e, he, hd⟩ := exists_left_of_forall₂ h ht
  obtain ⟨d, _, rfl⟩ := List.mem_map.1 he
  rw [eq_of_heading hd]

theorem addTypeDecl_ok {d : TypeDecl} (h : m.addTypeDecl d = .ok n) :
    ∃ t, n = { m with types := m.types ++ [t] } ∧ d.heading.Declares n t := by
  obtain ⟨⟨n', id⟩, hn, rfl⟩ := exists_of_map_ok h
  obtain ⟨_, rfl, rfl⟩ := addType_ok hn
  exact ⟨_, rfl, @TypeDecl.Declares.mk _ d.heading m.types.length [] [] .nil .nil
    (List.forall_mem_nil _)⟩

theorem holds_headings {ds : List TypeDecl} (h : ds.foldlM addTypeDecl ∅ = .ok n) :
    n.Holds (ds.map TypeDecl.heading) := by
  obtain ⟨hn, ts, hts, hd⟩ := foldlM_adds (I := Indexed)
    (f := fun m ts => { m with types := m.types ++ ts }) (R := fun n d t => d.heading.Declares n t)
    (fun m => by simp) (fun m xs ys => by simp)
    (fun m d n hm h => by
      have hr := reaches_addTypeDecl (c := ∅) h
      exact ⟨hr.indexed hm, addTypeDecl_ok h, fun e t ht => ht.mono hr.grows.metadata⟩)
    indexed_empty h
  have htypes : n.types = ts := by
    rw [hts]
    exact List.nil_append ts
  have hmethods : n.methods = [] := by
    rw [hts]
    rfl
  have hd : List.Forall₂ (TypeDecl.Declares n) (ds.map TypeDecl.heading) n.types := by
    rw [htypes]
    exact List.forall₂_map_left_iff.2 hd
  refine ⟨hn, hd, ?_⟩
  rw [methods_of_headings hd, hmethods]
  rfl

/-! ### Contents -/

theorem Holds.addContents {done rest : List TypeDecl} {d : TypeDecl}
    (h : m.Holds (done ++ d.heading :: rest.map TypeDecl.heading))
    (hn : m.addContents (d, done.length) = .ok n) :
    n.Holds (done ++ d :: rest.map TypeDecl.heading) := by
  obtain ⟨hni, hg, fields, methods, hadd, hf, hx⟩ := addContents_ok h.indexed hn
  obtain ⟨us, ws, htypes, hus, hws⟩ := exists_of_forall₂_append h.types
  obtain ⟨t, vs, ht, hvs, rfl⟩ := List.forall₂_cons_left_iff.1 hws
  have hid : t.id = done.length := by
    refine h.indexed.typeId ?_
    rw [htypes, hus.length_eq]
    simp
  rw [eq_of_heading ht, hid] at htypes
  have hnmethods : n.methods = m.methods ++ methods := by
    rw [hadd]
    rfl
  have hntypes : n.types = us ++ ⟨done.length, d.nameSpace, d.name, d.corlib, d.valueType,
      d.genericParams, methods.map MethodDef.id, fields⟩ :: vs := by
    rw [hadd]
    show m.types.modify done.length _ = _
    rw [htypes, hus.length_eq, List.modify_eq_take_drop]
    simp
  refine ⟨hni, ?_, ?_⟩
  · rw [hntypes]
    refine List.rel_append (hus.imp fun _ _ h => h.mono hg) (.cons ⟨hf, hx, ?_⟩
      (hvs.imp fun _ _ h => h.mono hg))
    intro x hm
    refine hni.methodDef_of_mem ?_
    rw [hnmethods]
    exact List.mem_append_right _ hm
  · have hmethods := h.methods
    rw [htypes] at hmethods
    simp only [List.flatMap_append, List.flatMap_cons, methods_of_headings hvs, List.append_nil]
      at hmethods
    simp only [hntypes, hnmethods, List.flatMap_append, List.flatMap_cons, methods_of_headings hvs,
      List.append_nil, List.map_append, hmethods]

theorem holds_of_addContents (done : List TypeDecl) {rest : List TypeDecl}
    (h : m.Holds (done ++ rest.map TypeDecl.heading))
    (hn : (rest.zipIdx done.length).foldlM Metadata.addContents m = .ok n) :
    n.Holds (done ++ rest) := by
  induction rest generalizing done m with
  | nil =>
    cases hn
    exact h
  | cons d rest ih =>
    rw [List.zipIdx_cons, List.foldlM_cons] at hn
    obtain ⟨m₁, h₁, hn⟩ := exists_of_bind_ok hn
    have hm₁ : m₁.Holds ((done ++ [d]) ++ rest.map TypeDecl.heading) := by
      rw [List.append_assoc]
      exact h.addContents h₁
    have hrest := ih _ hm₁ (by rw [List.length_append]; exact hn)
    rw [List.append_assoc] at hrest
    exact hrest

end Metadata

/-! ## Snapshots -/

/-- The signatures that a request mentions. -/
def Request.signatures (r : Request) : List Sig :=
  match r.target with
  | .method _ args => r.typeArgs ++ args
  | _ => r.typeArgs

/-- What is loaded is what the snapshot declares, in the same order. -/
structure Snapshot.Describes (s : Snapshot) (l : Loaded) : Prop where
  definitions : l.metadata.Holds s.types
  requests : List.Forall₂ (RequestDecl.Asks l.metadata) s.requests l.requests

/-- Every signature mentions definitions as they are, and a parameter of a method occurs in that
method alone. -/
structure Loaded.WellScoped (l : Loaded) : Prop where
  fields : ∀ t ∈ l.metadata.types, ∀ f ∈ t.fields, f.type.Grounded l.metadata none
  methods : ∀ x ∈ l.metadata.methods, ∀ s ∈ x.signatures, s.Grounded l.metadata (some x.id)
  requests : ∀ r ∈ l.requests, ∀ s ∈ r.signatures, s.Grounded l.metadata none

namespace Metadata.Holds

variable {m : Metadata} {ds : List TypeDecl}

theorem exists_declared (h : m.Holds ds) {t : TypeDef} (ht : t ∈ m.types) :
    ∃ d ∈ ds, d.Declares m t :=
  exists_left_of_forall₂ h.types ht

/-- A method that a type lists is declared there, and belongs to the type. -/
theorem exists_declares (h : m.Holds ds) {t : TypeDef} (ht : t ∈ m.types) {x : MethodDef}
    (hx : m.methodDef x.id = .ok x) (hxt : x.id ∈ t.methods) :
    ∃ d : MethodDecl, d.Declares m t.id x := by
  obtain ⟨d, _, ⟨_, hmethods, hfound⟩⟩ := h.exists_declared ht
  obtain ⟨y, hy, hyx⟩ := List.mem_map.1 hxt
  have hf := hfound y hy
  rw [hyx, hx] at hf
  cases hf
  obtain ⟨e, _, he⟩ := exists_left_of_forall₂ hmethods hy
  exact ⟨e, he⟩

/-- Every method of the metadata is listed by a type. -/
theorem exists_type (h : m.Holds ds) {x : MethodDef} (hx : x ∈ m.methods) :
    ∃ t ∈ m.types, x.id ∈ t.methods := by
  have hm : x.id ∈ m.types.flatMap TypeDef.methods := by
    rw [h.methods]
    exact List.mem_map_of_mem hx
  exact List.mem_flatMap.1 hm

end Metadata.Holds

theorem RequestDecl.Asks.grounded {m : Metadata} {d : RequestDecl} {r : Request}
    (h : d.Asks m r) : ∀ s ∈ r.signatures, s.Grounded m none := by
  obtain ⟨_, _, htypeArgs, htarget⟩ := h
  have hargs := NamedSig.Means.grounded_of_forall₂ htypeArgs
  cases htarget with
  | type _ _ => exact hargs
  | field _ _ _ => exact hargs
  | method _ _ hmethodArgs =>
    intro s hs
    exact (List.mem_append.1 hs).elim (hargs s)
      (NamedSig.Means.grounded_of_forall₂ hmethodArgs s)

namespace Snapshot

variable {s : Snapshot} {l : Loaded}

theorem holds_of_metadata {m : Metadata} (h : s.metadata = .ok m) : m.Holds s.types := by
  obtain ⟨m₁, h₁, h⟩ := exists_of_bind_ok h
  exact Metadata.holds_of_addContents [] (Metadata.holds_headings h₁) h

theorem describes_of_build (h : s.build = .ok l) : s.Describes l := by
  obtain ⟨m, hm, h⟩ := exists_of_bind_ok h
  obtain ⟨requests, hr, h⟩ := exists_of_bind_ok h
  cases h
  have hholds := holds_of_metadata hm
  exact ⟨hholds, (forall₂_of_mapM_ok hr).imp fun _ _ h =>
    RequestDecl.asks_of_requestOf hholds.indexed h⟩

theorem Describes.wellScoped (h : s.Describes l) : l.WellScoped := by
  refine ⟨?_, ?_, ?_⟩
  · intro t ht f hf
    obtain ⟨d, _, ⟨hfields, _, _⟩⟩ := h.definitions.exists_declared ht
    obtain ⟨e, _, he⟩ := exists_left_of_forall₂ hfields hf
    exact he.grounded
  · intro x hx
    obtain ⟨t, ht, hxt⟩ := h.definitions.exists_type hx
    obtain ⟨d, hd⟩ := h.definitions.exists_declares ht
      (h.definitions.indexed.methodDef_of_mem hx) hxt
    exact hd.grounded
  · intro r hr
    obtain ⟨d, _, hd⟩ := exists_left_of_forall₂ h.requests hr
    exact hd.grounded

/-- A snapshot that builds gets what it declares, and its signatures are well scoped. -/
theorem build_wellScoped (h : s.build = .ok l) : s.Describes l ∧ l.WellScoped :=
  ⟨describes_of_build h, (describes_of_build h).wellScoped⟩

/-- Two types that mention each other, each with a method that has a parameter of its own. -/
def pairSnapshot : Snapshot where
  types := [
    ⟨"Demo", "Cup", false, false, 1, [⟨"box", .genericInst "Demo.Box" [.typeParam 0 none], false⟩],
      [⟨"Fill", ⟨0x20⟩, ⟨6⟩, 1, .type "Demo.Box", [.methodParam 0], none, none⟩]⟩,
    ⟨"Demo", "Box", false, true, 1, [⟨"cup", .type "Demo.Cup", false⟩],
      [⟨"Map", ⟨0x20⟩, ⟨6⟩, 1, .methodParam 0, [.typeParam 0 none, .typeParam 0 (some "Demo.Cup")],
        none, some ⟨[.szArray (.methodParam 0)], [], []⟩⟩]⟩]
  requests := [⟨"Demo.Box", [.primitive .int32], some "Map", [.type "Demo.Cup"], none⟩]

/-- The parameter of the second method belongs to that method, although the first type comes with
a method of its own. -/
theorem build_wellScoped_pair : ∃ l x, pairSnapshot.build = .ok l ∧ pairSnapshot.Describes l ∧
    l.WellScoped ∧ l.metadata.methodDef 1 = .ok x ∧ x.name = "Map" ∧
    .szArray (.methodParam 0 1) ∈ x.signatures ∧
    .typeParam 0 ⟨0, "Demo", "Cup", false⟩ ∈ x.signatures := by
  obtain ⟨hdescribes, hscoped⟩ := build_wellScoped (s := pairSnapshot) rfl
  exact ⟨_, _, rfl, hdescribes, hscoped, rfl, rfl, by decide, by decide⟩

end Snapshot
end Monomorph
