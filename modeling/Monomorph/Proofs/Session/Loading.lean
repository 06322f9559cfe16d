import Mathlib.Logic.Relation
import Monomorph.Proofs.Session.Coherence
import Monomorph.Report

/-!
# Monomorph.Proofs.Session.Loading

Loading a snapshot and resolving its requests are runs of a session.

* `Snapshot.reaches_build`: the definitions of a snapshot are added one by one.
* `Loaded.resolveAll_ok_iff`: resolving the requests of a snapshot succeeds iff they are `Resolved`
  one after the other, each in the catalog that the one before leaves.
* `Snapshot.coherent_resolveAll`: so the invariant of runs holds when all of them are resolved.
-/

namespace Monomorph

open Relation (ReflTransGen)

namespace Session

/-- The second session comes after the first in some run. -/
def Reaches : Session → Session → Prop :=
  ReflTransGen fun s t => ∃ call answer, s.perform call = .ok (t, answer)

variable {s t u : Session}

theorem Reaches.refl (s : Session) : s.Reaches s :=
  ReflTransGen.refl

theorem Reaches.trans (h : s.Reaches t) (k : t.Reaches u) : s.Reaches u :=
  ReflTransGen.trans h k

theorem Reaches.of_ok (call : Call) (answer : Answer) (h : s.perform call = .ok (t, answer)) :
    s.Reaches t :=
  .single ⟨call, answer, h⟩

theorem Reaches.coherent (h : s.Reaches t) (hs : s.Coherent) : t.Coherent := by
  induction h with
  | refl => exact hs
  | tail _ hp ih =>
    obtain ⟨call, answer, hp⟩ := hp
    exact (performed_of_ok hp).coherent ih

theorem Reaches.grows (h : s.Reaches t) : s.Grows t := by
  induction h with
  | refl => exact .refl s
  | tail _ hp ih =>
    obtain ⟨call, answer, hp⟩ := hp
    exact ih.trans (performed_of_ok hp).grows

theorem Reaches.indexed (h : s.Reaches t) (hs : s.metadata.Indexed) : t.metadata.Indexed := by
  induction h with
  | refl => exact hs
  | tail _ hp ih =>
    obtain ⟨call, answer, hp⟩ := hp
    exact (performed_of_ok hp).indexed ih

/-- Steps that are runs make a run. -/
theorem reaches_of_foldlM {ε α σ : Type} {f : σ → α → Except ε σ} (view : σ → Session)
    (hf : ∀ {x a y}, f x a = .ok y → (view x).Reaches (view y)) {xs : List α} {x y : σ}
    (h : xs.foldlM f x = .ok y) : (view x).Reaches (view y) := by
  induction xs generalizing x with
  | nil =>
    cases h
    exact .refl _
  | cons a xs ih =>
    rw [List.foldlM_cons] at h
    obtain ⟨z, hz, h⟩ := exists_of_bind_ok h
    exact (hf hz).trans (ih h)

end Session

open Session (Reaches)

/-! ## Loading -/

namespace Metadata

variable {m n : Metadata} {c : Catalog}

theorem reaches_addTypeDecl {d : TypeDecl} (h : m.addTypeDecl d = .ok n) :
    Reaches ⟨m, c⟩ ⟨n, c⟩ := by
  obtain ⟨⟨n, id⟩, hn, rfl⟩ := exists_of_map_ok h
  refine .of_ok (.addType d.nameSpace d.name d.genericParams d.corlib d.valueType)
    (.defined id) ?_
  simp [Session.perform, hn, Except.map]

theorem reaches_addFieldDecl {type : TypeDefId} {d : FieldDecl}
    (h : addFieldDecl type m d = .ok n) : Reaches ⟨m, c⟩ ⟨n, c⟩ := by
  obtain ⟨sig, _, hn⟩ := exists_of_bind_ok h
  refine .of_ok (.addField type ⟨d.name, sig, d.isStatic⟩) .done ?_
  simp [Session.perform, hn, Except.map]

theorem reaches_addMethodDecl {type : TypeDefId} {d : MethodDecl}
    (h : addMethodDecl type m d = .ok n) : Reaches ⟨m, c⟩ ⟨n, c⟩ := by
  obtain ⟨sig, _, h⟩ := exists_of_bind_ok h
  obtain ⟨body, _, h⟩ := exists_of_bind_ok h
  obtain ⟨⟨n, id⟩, hn, h⟩ := exists_of_bind_ok h
  cases h
  refine .of_ok (.addMethod type d.name sig d.attributes body) (.defined id) ?_
  simp [Session.perform, hn, Except.map]

theorem reaches_addContents {d : TypeDecl × TypeDefId} (h : m.addContents d = .ok n) :
    Reaches ⟨m, c⟩ ⟨n, c⟩ := by
  obtain ⟨m₁, h₁, h⟩ := exists_of_bind_ok h
  exact (Session.reaches_of_foldlM (fun m => ⟨m, c⟩) reaches_addFieldDecl h₁).trans
    (Session.reaches_of_foldlM (fun m => ⟨m, c⟩) reaches_addMethodDecl h)

end Metadata

theorem Snapshot.reaches_build {s : Snapshot} {l : Loaded} (h : s.build = .ok l) :
    Reaches .start ⟨l.metadata, ∅⟩ := by
  obtain ⟨m, hm, h⟩ := exists_of_bind_ok h
  obtain ⟨requests, _, h⟩ := exists_of_bind_ok h
  cases h
  obtain ⟨m₁, h₁, hm⟩ := exists_of_bind_ok hm
  exact (Session.reaches_of_foldlM (fun m => ⟨m, ∅⟩) Metadata.reaches_addTypeDecl h₁).trans
    (Session.reaches_of_foldlM (fun m => ⟨m, ∅⟩) Metadata.reaches_addContents hm)

/-! ## Resolving -/

/-- The request is resolved in the first catalog and leaves the second one. -/
inductive Resolved (m : Metadata) (c : Catalog) (r : Request) : Catalog → Prop where
  | openType {d : Catalog} : c.resolveType m r.type r.typeArgs = .ok (d, none) → Resolved m c r d
  | type {d : Catalog} {owner : TypeInstanceId} :
      c.resolveType m r.type r.typeArgs = .ok (d, some owner) → r.target = .type →
      Resolved m c r d
  | method {d e : Catalog} {owner : TypeInstanceId} {id : MethodDefId} {args : List Sig}
      {answer : Option MethodInstanceId} :
      c.resolveType m r.type r.typeArgs = .ok (d, some owner) → r.target = .method id args →
      d.resolveMethod m owner id args = .ok (e, answer) → Resolved m c r e
  | field {d e : Catalog} {owner : TypeInstanceId} {index : Nat} {id : FieldInstanceId} :
      c.resolveType m r.type r.typeArgs = .ok (d, some owner) → r.target = .field index →
      d.resolveField m owner index = .ok (e, id) → Resolved m c r e

/-- The requests are resolved in order, each in the catalog that the one before leaves. -/
inductive ResolvedAll (m : Metadata) : Catalog → List Request → Catalog → Prop where
  | nil {c : Catalog} : ResolvedAll m c [] c
  | cons {c d e : Catalog} {r : Request} {rest : List Request} :
      Resolved m c r d → ResolvedAll m d rest e → ResolvedAll m c (r :: rest) e

section Resolving

variable {m : Metadata} {c d : Catalog} {r : Request} {p q : Progress}

theorem Catalog.resolveType_none {type : TypeDefId} {args : List Sig}
    (h : c.resolveType m type args = .ok (d, none)) : d = c := by
  obtain ⟨i, _, ⟨_, hd, _⟩ | ⟨_, key, reg, id, _, _, _, ha⟩⟩ := resolveType_ok h
  · exact hd
  · cases ha

theorem Catalog.resolveMethod_none {owner : TypeInstanceId} {method : MethodDefId}
    {args : List Sig} (h : c.resolveMethod m owner method args = .ok (d, none)) : d = c := by
  obtain ⟨_, hd, _⟩ | ⟨_, i, key, reg, id, _, _, _, _, ha⟩ := resolveMethod_ok h
  · exact hd
  · cases ha

/-- What is asked for has a definition, and so a name. -/
theorem Catalog.typeDef_of_resolveType {type : TypeDefId} {args : List Sig}
    {answer : Option TypeInstanceId} (h : c.resolveType m type args = .ok (d, answer)) :
    ∃ t, m.typeDef type = .ok t := by
  obtain ⟨t, ht, _⟩ := exists_of_bind_ok h
  exact ⟨t, ht⟩

theorem Catalog.methodDef_of_resolveMethod {owner : TypeInstanceId} {method : MethodDefId}
    {args : List Sig} {answer : Option MethodInstanceId}
    (h : c.resolveMethod m owner method args = .ok (d, answer)) :
    ∃ i, m.methodDef method = .ok i := by
  obtain ⟨_, _, h⟩ := exists_of_bind_ok h
  obtain ⟨i, hi, _⟩ := exists_of_bind_ok h
  exact ⟨i, hi⟩

theorem resolved_of_ok (h : p.resolve m r = .ok q) : Resolved m p.catalog r q.catalog := by
  rw [Progress.resolve] at h
  split at h
  · cases h
  · split at h
    · cases h
    · rename_i hd
      cases h
      obtain rfl := Catalog.resolveType_none hd
      exact .openType hd
    · rename_i d owner hd
      cases ht : r.target with
      | type =>
        rw [ht] at h
        cases h
        exact .type hd ht
      | method id args =>
        rw [ht, Progress.resolveTarget] at h
        split at h
        · cases h
        · rename_i hm
          cases h
          exact .method hd ht hm
        · rename_i hm
          split at h
          · cases h
          · cases h
            rw [Catalog.resolveMethod_none hm] at hm
            exact .method hd ht hm
      | field index =>
        rw [ht, Progress.resolveTarget] at h
        split at h
        · cases h
        · rename_i hf
          cases h
          exact .field hd ht hf

theorem exists_resolve (h : Resolved m p.catalog r d) :
    ∃ q, p.resolve m r = .ok q ∧ q.catalog = d := by
  cases h with
  | openType hd =>
    obtain ⟨t, ht⟩ := Catalog.typeDef_of_resolveType hd
    refine ⟨p.skip t.fullName, ?_, (Catalog.resolveType_none hd).symm⟩
    simp [Progress.resolve, ht, hd]
  | type hd htarget =>
    obtain ⟨t, ht⟩ := Catalog.typeDef_of_resolveType hd
    refine ⟨{ p with catalog := d }, ?_, rfl⟩
    simp [Progress.resolve, Progress.resolveTarget, ht, hd, htarget]
  | @method _ _ owner id args answer hd htarget hm =>
    obtain ⟨t, ht⟩ := Catalog.typeDef_of_resolveType hd
    cases answer with
    | some number =>
      refine ⟨{ p with catalog := d }, ?_, rfl⟩
      simp [Progress.resolve, Progress.resolveTarget, ht, hd, htarget, hm]
    | none =>
      obtain ⟨i, hi⟩ := Catalog.methodDef_of_resolveMethod hm
      obtain rfl := Catalog.resolveMethod_none hm
      refine ⟨{ p with catalog := d }.skip (t.fullName ++ "::" ++ i.name), ?_, rfl⟩
      simp [Progress.resolve, Progress.resolveTarget, ht, hd, htarget, hm, hi]
  | field hd htarget hf =>
    obtain ⟨t, ht⟩ := Catalog.typeDef_of_resolveType hd
    refine ⟨{ p with catalog := d }, ?_, rfl⟩
    simp [Progress.resolve, Progress.resolveTarget, ht, hd, htarget, hf]

theorem foldlM_resolve_ok_iff {rs : List Request} :
    (∃ q, rs.foldlM (Progress.resolve m) p = .ok q ∧ q.catalog = d) ↔
      ResolvedAll m p.catalog rs d := by
  induction rs generalizing p with
  | nil =>
    constructor
    · rintro ⟨q, hq, rfl⟩
      cases hq
      exact .nil
    · intro h
      cases h
      exact ⟨p, rfl, rfl⟩
  | cons r rest ih =>
    constructor
    · rintro ⟨q, hq, hd⟩
      rw [List.foldlM_cons] at hq
      obtain ⟨q₁, h₁, hq⟩ := exists_of_bind_ok hq
      exact .cons (resolved_of_ok h₁) (ih.1 ⟨q, hq, hd⟩)
    · intro h
      cases h with
      | cons h₁ h =>
        obtain ⟨q₁, hq₁, rfl⟩ := exists_resolve h₁
        obtain ⟨q, hq, hd⟩ := ih.2 h
        refine ⟨q, ?_, hd⟩
        rw [List.foldlM_cons, hq₁]
        exact hq

theorem Resolved.reaches (h : Resolved m c r d) : Reaches ⟨m, c⟩ ⟨m, d⟩ := by
  have htype {d : Catalog} {answer : Option TypeInstanceId}
      (hd : c.resolveType m r.type r.typeArgs = .ok (d, answer)) : Reaches ⟨m, c⟩ ⟨m, d⟩ := by
    refine .of_ok (.resolveType r.type r.typeArgs) (.ofNumber answer) ?_
    simp [Session.perform, hd, Except.map]
  cases h with
  | openType hd => exact htype hd
  | type hd _ => exact htype hd
  | @method _ _ owner id args answer hd _ hm =>
    refine (htype hd).trans (.of_ok (.resolveMethod owner id args) (.ofNumber answer) ?_)
    simp [Session.perform, hm, Except.map]
  | @field _ _ owner index id hd _ hf =>
    refine (htype hd).trans (.of_ok (.resolveField owner index) (.published id) ?_)
    simp [Session.perform, hf, Except.map]

theorem ResolvedAll.reaches {rs : List Request} (h : ResolvedAll m c rs d) :
    Reaches ⟨m, c⟩ ⟨m, d⟩ := by
  induction h with
  | nil => exact .refl _
  | cons h₁ _ ih => exact h₁.reaches.trans ih

end Resolving

theorem Loaded.resolveAll_ok_iff {l : Loaded} {c : Catalog} :
    (∃ p, l.resolveAll = .ok p ∧ p.catalog = c) ↔ ResolvedAll l.metadata ∅ l.requests c :=
  foldlM_resolve_ok_iff

/-- The invariant of runs holds when all requests of a snapshot are resolved. -/
theorem Snapshot.coherent_resolveAll {s : Snapshot} {l : Loaded} {p : Progress}
    (hl : s.build = .ok l) (hp : l.resolveAll = .ok p) : Session.Coherent ⟨l.metadata, p.catalog⟩ :=
  ((reaches_build hl).trans (Loaded.resolveAll_ok_iff.1 ⟨p, hp, rfl⟩).reaches).coherent
    Session.coherent_start

end Monomorph
