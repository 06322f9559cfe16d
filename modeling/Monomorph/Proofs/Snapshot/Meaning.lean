import Mathlib.Data.List.Forall2
import Mathlib.Data.Option.Basic
import Monomorph.Proofs.Metadata.Lookup
import Monomorph.Snapshot.Build

/-!
# Monomorph.Proofs.Snapshot.Meaning

What the declarations of a snapshot mean.

A declared signature means a signature over the definitions of some metadata: names stand for the
definitions that have them, and parameters get their owners from the scope. The relations follow
the declarations and say nothing about how a meaning is found.

* `NamedSig.Means`: the meaning of a signature, and of every declaration that contains some.
* `NamedSig.means_of_sigOf`, `MethodDecl.declares`, `RequestDecl.asks_of_requestOf`: what is found
  is the meaning.
* `NamedSig.Means.mono`: definitions that are added later leave a meaning as it is.
* `Sig.Grounded`: a meaning mentions nothing but definitions and parameters of its own method.
-/

namespace Monomorph

namespace Metadata

/-- The definition is in the metadata, under its own number. -/
def Has (m : Metadata) (t : TypeDef) : Prop :=
  m.typeDef t.id = .ok t

end Metadata

/-! ## Signatures -/

namespace NamedSig

/-- The declared signature stands for that signature. -/
inductive Means (m : Metadata) (scope : Scope) : NamedSig → Sig → Prop where
  | primitive (p : Primitive) : Means m scope (.primitive p) (.primitive p)
  | type {t : TypeDef} : m.Has t → Means m scope (.type t.fullName) t.sig
  | ptr {d : NamedSig} {s : Sig} : Means m scope d s → Means m scope (.ptr d) (.ptr s)
  | byRef {d : NamedSig} {s : Sig} : Means m scope d s → Means m scope (.byRef d) (.byRef s)
  | pinned {d : NamedSig} {s : Sig} : Means m scope d s → Means m scope (.pinned d) (.pinned s)
  | szArray {d : NamedSig} {s : Sig} : Means m scope d s → Means m scope (.szArray d) (.szArray s)
  | array {d : NamedSig} {s : Sig} (rank : Nat) (sizes : List Nat) (lowerBounds : List Int) :
      Means m scope d s →
      Means m scope (.array d rank sizes lowerBounds) (.array s rank sizes lowerBounds)
  | modReqd {t : TypeDef} {d : NamedSig} {s : Sig} : m.Has t → Means m scope d s →
      Means m scope (.modReqd t.fullName d) (.modReqd t.toRef s)
  | modOpt {t : TypeDef} {d : NamedSig} {s : Sig} : m.Has t → Means m scope d s →
      Means m scope (.modOpt t.fullName d) (.modOpt t.toRef s)
  | genericInst {t : TypeDef} {ds : List NamedSig} {ss : List Sig} : m.Has t →
      List.Forall₂ (Means m scope) ds ss →
      Means m scope (.genericInst t.fullName ds) (.genericInst t.sig ss)
  /-- Without an owner, the parameter is one of the enclosing type. -/
  | typeParam {t : TypeDef} (number : Nat) : m.Has t → scope.type = some t.id →
      Means m scope (.typeParam number none) (.typeParam number t.toRef)
  | ownedTypeParam {t : TypeDef} (number : Nat) : m.Has t →
      Means m scope (.typeParam number (some t.fullName)) (.typeParam number t.toRef)
  | methodParam {id : MethodDefId} (number : Nat) : scope.method = some id →
      Means m scope (.methodParam number) (.methodParam number id)
  | unsupported (e : ElementType) : Means m scope (.unsupported e) (.unsupported e)

end NamedSig

/-- The signature mentions types of the metadata, as they are there, and parameters of that
method. -/
inductive Sig.Grounded (m : Metadata) (method : Option MethodDefId) : Sig → Prop where
  | primitive (p : Primitive) : Grounded m method (.primitive p)
  | type {t : TypeDef} : m.Has t → Grounded m method t.sig
  | ptr {s : Sig} : Grounded m method s → Grounded m method (.ptr s)
  | byRef {s : Sig} : Grounded m method s → Grounded m method (.byRef s)
  | pinned {s : Sig} : Grounded m method s → Grounded m method (.pinned s)
  | szArray {s : Sig} : Grounded m method s → Grounded m method (.szArray s)
  | array {s : Sig} (rank : Nat) (sizes : List Nat) (lowerBounds : List Int) :
      Grounded m method s → Grounded m method (.array s rank sizes lowerBounds)
  | modReqd {t : TypeDef} {s : Sig} : m.Has t → Grounded m method s →
      Grounded m method (.modReqd t.toRef s)
  | modOpt {t : TypeDef} {s : Sig} : m.Has t → Grounded m method s →
      Grounded m method (.modOpt t.toRef s)
  | genericInst {t : TypeDef} {ss : List Sig} : m.Has t → (∀ s ∈ ss, Grounded m method s) →
      Grounded m method (.genericInst t.sig ss)
  | typeParam {t : TypeDef} (number : Nat) : m.Has t → Grounded m method (.typeParam number t.toRef)
  | methodParam {id : MethodDefId} (number : Nat) : method = some id →
      Grounded m method (.methodParam number id)
  | unsupported (e : ElementType) : Grounded m method (.unsupported e)

namespace NamedSig.Means

variable {m n : Metadata} {scope : Scope} {d : NamedSig} {s : Sig}

theorem grounded (h : d.Means m scope s) : s.Grounded m scope.method := by
  induction h using Means.rec
    (motive_2 := fun _ ss _ => ∀ s ∈ ss, s.Grounded m scope.method) with
  | primitive p => exact .primitive p
  | type ht => exact .type ht
  | ptr _ ih => exact .ptr ih
  | byRef _ ih => exact .byRef ih
  | pinned _ ih => exact .pinned ih
  | szArray _ ih => exact .szArray ih
  | array rank sizes lowerBounds _ ih => exact .array rank sizes lowerBounds ih
  | modReqd ht _ ih => exact .modReqd ht ih
  | modOpt ht _ ih => exact .modOpt ht ih
  | genericInst ht _ ih => exact .genericInst ht ih
  | typeParam number ht _ => exact .typeParam number ht
  | ownedTypeParam number ht => exact .typeParam number ht
  | methodParam number h => exact .methodParam number h
  | unsupported e => exact .unsupported e
  | nil s hs => cases hs
  | cons _ _ ih ihs s hs =>
    rcases List.mem_cons.1 hs with rfl | hs
    · exact ih
    · exact ihs s hs

theorem grounded_of_forall₂ {ds : List NamedSig} {ss : List Sig}
    (h : List.Forall₂ (Means m scope) ds ss) : ∀ s ∈ ss, s.Grounded m scope.method := by
  intro s hs
  obtain ⟨d, _, hd⟩ := exists_left_of_forall₂ h hs
  exact hd.grounded

end NamedSig.Means

namespace Metadata

variable {m n : Metadata} {t : TypeDef} {name : String}

theorem Has.mono (hg : m.Grows n) (h : m.Has t) : ∃ u, n.Has u ∧ t.Extends u := by
  obtain ⟨u, hu, hx⟩ := hg.typeDef h
  have hid : u.id = t.id := congrArg TypeRef.id hx.toRef
  exact ⟨u, (congrArg n.typeDef hid).trans hu, hx⟩

theorem Indexed.has (hm : m.Indexed) {id : TypeDefId} (h : m.typeDef id = .ok t) :
    m.Has t ∧ t.id = id := by
  have hid : t.id = id := hm.typeId (typeDef_eq_ok_iff.1 h)
  exact ⟨(congrArg m.typeDef hid).trans h, hid⟩

end Metadata

theorem TypeDef.Extends.sig {t u : TypeDef} (h : t.Extends u) : u.sig = t.sig := by
  rw [TypeDef.sig, TypeDef.sig, h.valueType, h.toRef]

theorem NamedSig.Means.mono {m n : Metadata} {scope : Scope} (hg : m.Grows n) {d : NamedSig}
    {s : Sig} (h : d.Means m scope s) : d.Means n scope s := by
  induction h using Means.rec (motive_2 := fun ds ss _ => List.Forall₂ (Means n scope) ds ss) with
  | primitive p => exact .primitive p
  | type ht =>
    obtain ⟨u, hu, hx⟩ := ht.mono hg
    rw [← hx.fullName, ← hx.sig]
    exact .type hu
  | ptr _ ih => exact .ptr ih
  | byRef _ ih => exact .byRef ih
  | pinned _ ih => exact .pinned ih
  | szArray _ ih => exact .szArray ih
  | array rank sizes lowerBounds _ ih => exact .array rank sizes lowerBounds ih
  | modReqd ht _ ih =>
    obtain ⟨u, hu, hx⟩ := ht.mono hg
    rw [← hx.fullName, ← hx.toRef]
    exact .modReqd hu ih
  | modOpt ht _ ih =>
    obtain ⟨u, hu, hx⟩ := ht.mono hg
    rw [← hx.fullName, ← hx.toRef]
    exact .modOpt hu ih
  | genericInst ht _ ih =>
    obtain ⟨u, hu, hx⟩ := ht.mono hg
    rw [← hx.fullName, ← hx.sig]
    exact .genericInst hu ih
  | typeParam number ht hs =>
    obtain ⟨u, hu, hx⟩ := ht.mono hg
    rw [← TypeDef.toRef_id, ← hx.toRef] at hs
    rw [← hx.toRef]
    exact .typeParam number hu hs
  | ownedTypeParam number ht =>
    obtain ⟨u, hu, hx⟩ := ht.mono hg
    rw [← hx.fullName, ← hx.toRef]
    exact .ownedTypeParam number hu
  | methodParam number h => exact .methodParam number h
  | unsupported e => exact .unsupported e
  | nil => exact .nil
  | cons _ _ ih ihs => exact .cons ih ihs

/-! ## Finding a meaning -/

namespace Metadata

variable {m : Metadata} {scope : Scope} {name : String}

theorem exists_of_findType (hm : m.Indexed) {id : TypeDefId} (h : m.findType name = .ok id) :
    ∃ t, m.Has t ∧ t.id = id ∧ t.fullName = name := by
  obtain ⟨t, ht, hname⟩ := (findType_eq_ok_iff hm).1 h
  obtain ⟨hhas, hid⟩ := hm.has ht
  exact ⟨t, hhas, hid, hname⟩

theorem exists_of_refNamed (hm : m.Indexed) {r : TypeRef} (h : m.refNamed name = .ok r) :
    ∃ t, m.Has t ∧ t.fullName = name ∧ t.toRef = r := by
  obtain ⟨id, hid, h⟩ := exists_of_bind_ok h
  obtain ⟨t, ht, rfl, hname⟩ := exists_of_findType hm hid
  obtain ⟨u, hu, h⟩ := exists_of_bind_ok h
  rw [ht] at hu
  cases hu
  cases h
  exact ⟨t, ht, hname, rfl⟩

theorem exists_of_sigNamed (hm : m.Indexed) {s : Sig} (h : m.sigNamed name = .ok s) :
    ∃ t, m.Has t ∧ t.fullName = name ∧ t.sig = s := by
  obtain ⟨id, hid, h⟩ := exists_of_bind_ok h
  obtain ⟨t, ht, rfl, hname⟩ := exists_of_findType hm hid
  obtain ⟨u, hu, h⟩ := exists_of_bind_ok h
  rw [ht] at hu
  cases hu
  cases h
  exact ⟨t, ht, hname, rfl⟩

theorem sigsOf_eq_mapM (ds : List NamedSig) : m.sigsOf scope ds = ds.mapM (m.sigOf scope) := by
  induction ds with
  | nil => rfl
  | cons d rest ih =>
    rw [sigsOf, List.mapM_cons, ih]
    cases m.sigOf scope d with
    | error e => rfl
    | ok s => cases rest.mapM (m.sigOf scope) <;> rfl

end Metadata

namespace NamedSig

variable {m : Metadata} {scope : Scope}

/-- What is found for a declared signature is its meaning. -/
theorem means_of_sigOf (hm : m.Indexed) (d : NamedSig) :
    ∀ s, m.sigOf scope d = .ok s → d.Means m scope s := by
  induction d using NamedSig.rec (motive_2 := fun ds => ∀ ss, m.sigsOf scope ds = .ok ss →
      List.Forall₂ (Means m scope) ds ss) with
  | primitive p =>
    intro s h
    cases h
    exact .primitive p
  | type name =>
    intro s h
    obtain ⟨t, ht, rfl, rfl⟩ := Metadata.exists_of_sigNamed hm h
    exact .type ht
  | ptr d ih =>
    intro s h
    obtain ⟨s, hs, rfl⟩ := exists_of_map_ok h
    exact .ptr (ih s hs)
  | byRef d ih =>
    intro s h
    obtain ⟨s, hs, rfl⟩ := exists_of_map_ok h
    exact .byRef (ih s hs)
  | pinned d ih =>
    intro s h
    obtain ⟨s, hs, rfl⟩ := exists_of_map_ok h
    exact .pinned (ih s hs)
  | szArray d ih =>
    intro s h
    obtain ⟨s, hs, rfl⟩ := exists_of_map_ok h
    exact .szArray (ih s hs)
  | array d rank sizes lowerBounds ih =>
    intro s h
    obtain ⟨s, hs, rfl⟩ := exists_of_map_ok h
    exact .array rank sizes lowerBounds (ih s hs)
  | modReqd name d ih =>
    intro s h
    rw [Metadata.sigOf] at h
    split at h
    · cases h
    · rename_i hr
      obtain ⟨t, ht, rfl, rfl⟩ := Metadata.exists_of_refNamed hm hr
      obtain ⟨s, hs, rfl⟩ := exists_of_map_ok h
      exact .modReqd ht (ih s hs)
  | modOpt name d ih =>
    intro s h
    rw [Metadata.sigOf] at h
    split at h
    · cases h
    · rename_i hr
      obtain ⟨t, ht, rfl, rfl⟩ := Metadata.exists_of_refNamed hm hr
      obtain ⟨s, hs, rfl⟩ := exists_of_map_ok h
      exact .modOpt ht (ih s hs)
  | genericInst name ds ih =>
    intro s h
    rw [Metadata.sigOf] at h
    split at h
    · cases h
    · rename_i hr
      obtain ⟨t, ht, rfl, rfl⟩ := Metadata.exists_of_sigNamed hm hr
      obtain ⟨ss, hss, rfl⟩ := exists_of_map_ok h
      exact .genericInst ht (ih ss hss)
  | typeParam number owner =>
    intro s h
    obtain ⟨r, hr, rfl⟩ := exists_of_map_ok h
    cases owner with
    | some name =>
      obtain ⟨t, ht, rfl, rfl⟩ := Metadata.exists_of_refNamed hm hr
      exact .ownedTypeParam number ht
    | none =>
      rw [Metadata.paramOwner] at hr
      split at hr
      · rename_i id hid
        obtain ⟨t, ht, rfl⟩ := exists_of_map_ok hr
        obtain ⟨ht, rfl⟩ := hm.has ht
        exact .typeParam number ht hid
      · cases hr
  | methodParam number =>
    intro s h
    rw [Metadata.sigOf] at h
    split at h
    · rename_i id hid
      cases h
      exact .methodParam number hid
    · cases h
  | unsupported e =>
    intro s h
    cases h
    exact .unsupported e
  | nil ss h =>
    cases h
    exact .nil
  | cons d rest ihd ih ss h =>
    rw [Metadata.sigsOf] at h
    split at h
    · cases h
    · rename_i s hs
      obtain ⟨ss, hss, rfl⟩ := exists_of_map_ok h
      exact .cons (ihd s hs) (ih ss hss)

theorem means_of_sigsOf (hm : m.Indexed) {ds : List NamedSig} {ss : List Sig}
    (h : m.sigsOf scope ds = .ok ss) : List.Forall₂ (Means m scope) ds ss := by
  rw [Metadata.sigsOf_eq_mapM] at h
  exact (forall₂_of_mapM_ok h).imp fun d s hs => means_of_sigOf hm d s hs

end NamedSig

/-! ## Definitions -/

section Definitions

variable (m : Metadata)

/-- The declared field stands for that field of the type. -/
inductive FieldDecl.Declares (type : TypeDefId) (d : FieldDecl) : FieldDef → Prop where
  | mk {s : Sig} : d.type.Means m (.inType type) s → Declares type d ⟨d.name, s, d.isStatic⟩

inductive HandlerDecl.Declares (scope : Scope) (d : HandlerDecl) : Handler → Prop where
  | mk {catchType : Option Sig} : Option.Rel (NamedSig.Means m scope) d.catchType catchType →
      Declares scope d
        ⟨d.kind, d.tryStart, d.tryEnd, d.handlerStart, d.handlerEnd, d.filterStart, catchType⟩

inductive BodyDecl.Declares (scope : Scope) (d : BodyDecl) : MethodBody → Prop where
  | mk {locals : List Sig} {handlers : List Handler} :
      List.Forall₂ (NamedSig.Means m scope) d.locals locals →
      List.Forall₂ (HandlerDecl.Declares m scope) d.handlers handlers →
      Declares scope d ⟨locals, handlers, d.instructions⟩

/-- The calling convention of a method; only generic methods have its flag set for them. -/
def MethodDecl.finalCallConv (d : MethodDecl) : CallConv :=
  if d.genericParams = 0 then d.callConv else d.callConv.join .generic

/-- The declared method stands for that method of the type. Its parameters are its own. -/
inductive MethodDecl.Declares (type : TypeDefId) (d : MethodDecl) : MethodDef → Prop where
  | mk {id : MethodDefId} {ret : Sig} {params : List Sig} {sentinel : Option (List Sig)}
      {body : Option MethodBody} :
      d.ret.Means m (.inMethod type id) ret →
      List.Forall₂ (NamedSig.Means m (.inMethod type id)) d.params params →
      Option.Rel (List.Forall₂ (NamedSig.Means m (.inMethod type id))) d.sentinel sentinel →
      Option.Rel (BodyDecl.Declares m (.inMethod type id)) d.body body →
      Declares type d
        ⟨id, type, d.name, ⟨d.finalCallConv, d.genericParams, ret, params, sentinel⟩, d.attributes,
          body⟩

/-- The declared type stands for that type, with its fields and methods in their order. -/
inductive TypeDecl.Declares (d : TypeDecl) : TypeDef → Prop where
  | mk {id : TypeDefId} {fields : List FieldDef} {methods : List MethodDef} :
      List.Forall₂ (FieldDecl.Declares m id) d.fields fields →
      List.Forall₂ (MethodDecl.Declares m id) d.methods methods →
      (∀ x ∈ methods, m.methodDef x.id = .ok x) →
      Declares d
        ⟨id, d.nameSpace, d.name, d.corlib, d.valueType, d.genericParams,
          methods.map MethodDef.id, fields⟩

end Definitions

/-- Every signature that a method definition mentions. -/
def MethodDef.signatures (x : MethodDef) : List Sig :=
  x.sig.ret :: (x.sig.params ++ x.sig.sentinel.getD [] ++
    (x.body.map fun b => b.locals ++ b.handlers.filterMap Handler.catchType).getD [])

section Growing

variable {m n : Metadata} {type : TypeDefId} {scope : Scope}

theorem rel_mono {α β : Type} {R S : α → β → Prop} (h : ∀ a b, R a b → S a b) {a : Option α}
    {b : Option β} (hr : Option.Rel R a b) : Option.Rel S a b := by
  cases hr with
  | some hr => exact .some (h _ _ hr)
  | none => exact .none

theorem FieldDecl.Declares.mono (hg : m.Grows n) {d : FieldDecl} {f : FieldDef}
    (h : d.Declares m type f) : d.Declares n type f := by
  obtain ⟨hs⟩ := h
  exact ⟨hs.mono hg⟩

theorem HandlerDecl.Declares.mono (hg : m.Grows n) {d : HandlerDecl} {x : Handler}
    (h : d.Declares m scope x) : d.Declares n scope x := by
  obtain ⟨hc⟩ := h
  exact ⟨rel_mono (fun _ _ hs => hs.mono hg) hc⟩

theorem BodyDecl.Declares.mono (hg : m.Grows n) {d : BodyDecl} {x : MethodBody}
    (h : d.Declares m scope x) : d.Declares n scope x := by
  obtain ⟨hl, hh⟩ := h
  exact ⟨hl.imp fun _ _ hs => hs.mono hg, hh.imp fun _ _ hx => hx.mono hg⟩

theorem MethodDecl.Declares.mono (hg : m.Grows n) {d : MethodDecl} {x : MethodDef}
    (h : d.Declares m type x) : d.Declares n type x := by
  obtain ⟨hr, hp, hs, hb⟩ := h
  exact ⟨hr.mono hg, hp.imp fun _ _ h => h.mono hg,
    rel_mono (fun _ _ h => h.imp fun _ _ h => h.mono hg) hs,
    rel_mono (fun _ _ h => h.mono hg) hb⟩

theorem TypeDecl.Declares.mono (hg : m.Grows n) {d : TypeDecl} {t : TypeDef}
    (h : d.Declares m t) : d.Declares n t := by
  obtain ⟨hf, hm, hd⟩ := h
  exact ⟨hf.imp fun _ _ h => h.mono hg, hm.imp fun _ _ h => h.mono hg,
    fun x hx => hg.methodDef (hd x hx)⟩

end Growing

section Grounded

variable {m : Metadata} {type : TypeDefId}

theorem FieldDecl.Declares.grounded {d : FieldDecl} {f : FieldDef} (h : d.Declares m type f) :
    f.type.Grounded m none := by
  obtain ⟨hs⟩ := h
  exact hs.grounded

theorem BodyDecl.Declares.grounded {scope : Scope} {d : BodyDecl} {b : MethodBody}
    (h : d.Declares m scope b) :
    ∀ s ∈ b.locals ++ b.handlers.filterMap Handler.catchType, s.Grounded m scope.method := by
  obtain ⟨hl, hh⟩ := h
  intro s hs
  rcases List.mem_append.1 hs with hs | hs
  · exact NamedSig.Means.grounded_of_forall₂ hl s hs
  · obtain ⟨x, hx, hc⟩ := List.mem_filterMap.1 hs
    obtain ⟨e, _, ⟨hr⟩⟩ := exists_left_of_forall₂ hh hx
    cases hc
    generalize e.catchType = c at hr
    cases hr with
    | some hr => exact hr.grounded

/-- A method mentions no parameter of another method. -/
theorem MethodDecl.Declares.grounded {d : MethodDecl} {x : MethodDef} (h : d.Declares m type x) :
    ∀ s ∈ x.signatures, s.Grounded m (some x.id) := by
  obtain ⟨hr, hp, hs, hb⟩ := h
  intro s hm
  simp only [MethodDef.signatures, List.mem_cons, List.mem_append] at hm
  rcases hm with rfl | (hm | hm) | hm
  · exact hr.grounded
  · exact NamedSig.Means.grounded_of_forall₂ hp s hm
  · generalize d.sentinel = e at hs
    cases hs with
    | none => cases hm
    | some hs => exact NamedSig.Means.grounded_of_forall₂ hs s hm
  · generalize d.body = e at hb
    cases hb with
    | none => cases hm
    | some hb => exact hb.grounded s hm

end Grounded

section Finding

variable {m : Metadata} {scope : Scope} {type : TypeDefId}

/-- What may be missing is missing on both sides, or related. -/
theorem rel_of_optional {α β : Type} {g : Option α → Except Error (Option β)} {a : Option α}
    {b : Option β} (h : g a = .ok b) {f : α → Except Error β} (hnone : g none = .ok none)
    (hsome : ∀ a, g (some a) = (f a).map some) {R : α → β → Prop}
    (hf : ∀ a b, f a = .ok b → R a b) : Option.Rel R a b := by
  cases a with
  | none =>
    rw [hnone] at h
    cases h
    exact .none
  | some a =>
    rw [hsome] at h
    obtain ⟨b, hb, rfl⟩ := exists_of_map_ok h
    exact .some (hf a b hb)

theorem HandlerDecl.declares (hm : m.Indexed) {d : HandlerDecl} {x : Handler}
    (h : m.handlerOf scope d = .ok x) : d.Declares m scope x := by
  obtain ⟨catchType, hc, h⟩ := exists_of_bind_ok h
  cases h
  exact ⟨rel_of_optional hc rfl (fun _ => rfl) (NamedSig.means_of_sigOf hm)⟩

theorem BodyDecl.declares (hm : m.Indexed) {d : BodyDecl} {x : MethodBody}
    (h : m.bodyOf scope d = .ok x) : d.Declares m scope x := by
  obtain ⟨locals, hl, h⟩ := exists_of_bind_ok h
  obtain ⟨handlers, hh, h⟩ := exists_of_bind_ok h
  cases h
  exact ⟨NamedSig.means_of_sigsOf hm hl,
    (forall₂_of_mapM_ok hh).imp fun _ _ hx => HandlerDecl.declares hm hx⟩

/-- The parts of a method, found in the scope of a number, make a method of that number. -/
theorem MethodDecl.declares (hm : m.Indexed) {id : MethodDefId} {d : MethodDecl} {sig : MethodSig}
    {body : Option MethodBody} (hsig : m.methodSigOf (.inMethod type id) d = .ok sig)
    (hbody : m.bodyOf? (.inMethod type id) d.body = .ok body) :
    d.Declares m type ⟨id, type, d.name, sig, d.attributes, body⟩ := by
  obtain ⟨ret, hr, hsig⟩ := exists_of_bind_ok hsig
  obtain ⟨params, hp, hsig⟩ := exists_of_bind_ok hsig
  obtain ⟨sentinel, hs, hsig⟩ := exists_of_bind_ok hsig
  have hsig : sig = ⟨d.finalCallConv, d.genericParams, ret, params, sentinel⟩ := by
    cases hsig
    rw [finalCallConv]
    split
    · rename_i h0
      rw [h0]
      rfl
    · rfl
  rw [hsig]
  exact ⟨NamedSig.means_of_sigOf hm _ _ hr, NamedSig.means_of_sigsOf hm hp,
    rel_of_optional hs rfl (fun _ => rfl) (fun _ _ h => NamedSig.means_of_sigsOf hm h),
    rel_of_optional hbody rfl (fun _ => rfl) (fun _ _ h => BodyDecl.declares hm h)⟩

end Finding

/-! ## Requests -/

/-- The method is the only one of its name in the type. -/
structure TypeDef.OnlyMethod (m : Metadata) (t : TypeDef) (x : MethodDef) : Prop where
  found : m.methodDef x.id = .ok x
  mem : x.id ∈ t.methods
  only : ∀ y, m.methodDef y.id = .ok y → y.id ∈ t.methods → y.name = x.name → y = x

/-- The field stands there in the type, and no field before it has its name. -/
structure TypeDef.FirstField (t : TypeDef) (index : Nat) (f : FieldDef) : Prop where
  found : t.fields[index]? = some f
  first : ∀ g ∈ t.fields.take index, g.name ≠ f.name

section Requests

variable (m : Metadata)

/-- The request is for that part of the type. -/
inductive RequestDecl.Aims (t : TypeDef) (d : RequestDecl) : Target → Prop where
  | type : d.method = none → d.field = none → Aims t d .type
  | method {x : MethodDef} {args : List Sig} : d.method = some x.name → t.OnlyMethod m x →
      List.Forall₂ (NamedSig.Means m .outside) d.methodArgs args → Aims t d (.method x.id args)
  | field {index : Nat} {f : FieldDef} : d.method = none → d.field = some f.name →
      t.FirstField index f → Aims t d (.field index)

/-- The declared request stands for that request. -/
inductive RequestDecl.Asks (d : RequestDecl) : Request → Prop where
  | mk {t : TypeDef} {typeArgs : List Sig} {target : Target} : m.Has t → t.fullName = d.type →
      List.Forall₂ (NamedSig.Means m .outside) d.typeArgs typeArgs → d.Aims m t target →
      Asks d ⟨t.id, typeArgs, target⟩

end Requests

section Asking

variable {m : Metadata} {t : TypeDef} {name : String}

theorem Metadata.exists_of_findMethod (hm : m.Indexed) (ht : m.Has t) {id : MethodDefId}
    (h : m.findMethod t.id name = .ok id) : ∃ x, t.OnlyMethod m x ∧ x.id = id ∧ x.name = name := by
  obtain ⟨u, hu, h⟩ := exists_of_bind_ok h
  rw [ht] at hu
  cases hu
  split at h
  · cases h
  · rename_i id' hf
    cases h
    have hmem (k : MethodDefId) : k ∈ t.methods ∧ m.isMethodNamed name k = true ↔ k = id := by
      rw [← List.mem_filter, hf, List.mem_singleton]
    obtain ⟨hid, hname⟩ := (hmem id).2 rfl
    rw [isMethodNamed] at hname
    split at hname
    · rename_i x hx
      have hxid : x.id = id := hm.methodId hx
      obtain rfl := eq_of_beq hname
      subst hxid
      refine ⟨x, ⟨methodDef_eq_ok_iff.2 hx, hid, ?_⟩, rfl, rfl⟩
      intro y hy hmy hyx
      have hyid : y.id = x.id := by
        refine (hmem y.id).1 ⟨hmy, ?_⟩
        rw [isMethodNamed, methodDef_eq_ok_iff.1 hy]
        exact beq_iff_eq.2 hyx
      rw [hyid, methodDef_eq_ok_iff.2 hx] at hy
      cases hy
      rfl
    · cases hname
  · cases h

theorem Metadata.exists_of_findField (ht : m.Has t) {index : Nat}
    (h : m.findField t.id name = .ok index) : ∃ f, t.FirstField index f ∧ f.name = name := by
  obtain ⟨u, hu, h⟩ := exists_of_bind_ok h
  rw [ht] at hu
  cases hu
  split at h
  · rename_i hf
    cases h
    rw [List.findIdx?_eq_some_iff_getElem] at hf
    obtain ⟨hlt, hname, hfirst⟩ := hf
    obtain rfl := eq_of_beq hname
    refine ⟨_, ⟨List.getElem?_eq_getElem hlt, ?_⟩, rfl⟩
    intro g hg he
    obtain ⟨k, hk, rfl⟩ := List.mem_take_iff_getElem.1 hg
    exact hfirst k (by omega) (beq_iff_eq.2 he)
  · cases h

/-- What is found for a request is what it asks for. -/
theorem RequestDecl.asks_of_requestOf (hm : m.Indexed) {d : RequestDecl} {r : Request}
    (h : m.requestOf d = .ok r) : d.Asks m r := by
  obtain ⟨id, hid, h⟩ := exists_of_bind_ok h
  obtain ⟨typeArgs, ha, h⟩ := exists_of_bind_ok h
  obtain ⟨target, ht, h⟩ := exists_of_bind_ok h
  cases h
  obtain ⟨t, hhas, rfl, hname⟩ := Metadata.exists_of_findType hm hid
  refine ⟨hhas, hname, NamedSig.means_of_sigsOf hm ha, ?_⟩
  rw [Metadata.targetOf] at ht
  split at ht
  · rename_i name _ hmethod
    obtain ⟨k, hk, ht⟩ := exists_of_bind_ok ht
    obtain ⟨args, hargs, ht⟩ := exists_of_bind_ok ht
    cases ht
    obtain ⟨x, hx, rfl, rfl⟩ := Metadata.exists_of_findMethod hm hhas hk
    exact .method hmethod hx (NamedSig.means_of_sigsOf hm hargs)
  · rename_i name hmethod hfield
    obtain ⟨k, hk, rfl⟩ := exists_of_map_ok ht
    obtain ⟨f, hf, rfl⟩ := Metadata.exists_of_findField hhas hk
    exact .field hmethod hfield hf
  · rename_i hmethod hfield
    cases ht
    exact .type hmethod hfield

end Asking
end Monomorph
