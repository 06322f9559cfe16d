import Monomorph.Proofs.Signature.Rendering
import Monomorph.Proofs.Signature.Shown

/-!
# Monomorph.Proofs.Signature.Congruence

Replacing parameters by related arguments.

A relation that every kind of node keeps is a `Congruence`. To show the same is one, and to be
written the same is another (`SameText`), which tells also whether a signature can be written.

* `Congruence.exists_substitute`: if a signature can be substituted, it can be with related
  arguments too, and the results are related.
* `KeyEquivalent.sameText`: what shows the same is written the same, also without owners.
-/

namespace Monomorph
namespace Sig

/-- The relation is kept by every kind of node. -/
structure Congruence (R : Sig → Sig → Prop) : Prop where
  refl : ∀ s, R s s
  ptr : ∀ {s t}, R s t → R (.ptr s) (.ptr t)
  byRef : ∀ {s t}, R s t → R (.byRef s) (.byRef t)
  pinned : ∀ {s t}, R s t → R (.pinned s) (.pinned t)
  szArray : ∀ {s t}, R s t → R (.szArray s) (.szArray t)
  array : ∀ {s t rank sizes lowerBounds}, R s t →
    R (.array s rank sizes lowerBounds) (.array t rank sizes lowerBounds)
  modReqd : ∀ {s t modifier}, R s t → R (.modReqd modifier s) (.modReqd modifier t)
  modOpt : ∀ {s t modifier}, R s t → R (.modOpt modifier s) (.modOpt modifier t)
  genericInst : ∀ {generic args args'}, List.Forall₂ R args args' →
    R (.genericInst generic args) (.genericInst generic args')

/-! ## Two congruences -/

/-- The signatures are written the same, or cannot be written for the same reason. -/
def SameText (owners : Bool) (s t : Sig) : Prop :=
  s.render owners = t.render owners

variable {owners : Bool}

theorem congruence_keyEquivalent (owners : Bool) : Congruence (KeyEquivalent owners) where
  refl _ := rfl
  ptr h := by rw [KeyEquivalent, shown, shown, h]
  byRef h := by rw [KeyEquivalent, shown, shown, h]
  pinned h := by rw [KeyEquivalent, shown, shown, h]
  szArray h := by rw [KeyEquivalent, shown, shown, h]
  array h := by rw [KeyEquivalent, shown, shown, h]
  modReqd h := by rw [KeyEquivalent, shown, shown, h]
  modOpt h := by rw [KeyEquivalent, shown, shown, h]
  genericInst h := by rw [KeyEquivalent, shown, shown, forall₂_keyEquivalent_iff.1 h]

theorem renderEach_of_sameText {ss ts : List Sig} (h : List.Forall₂ (SameText owners) ss ts) :
    renderEach owners ss = renderEach owners ts := by
  induction h with
  | nil => rfl
  | cons h _ ih => rw [renderEach, renderEach, h, ih]

theorem renderList_of_sameText {ss ts : List Sig} (h : List.Forall₂ (SameText owners) ss ts) :
    renderList owners ss = renderList owners ts := by
  rw [renderList, renderList, renderEach_of_sameText h]

theorem congruence_sameText (owners : Bool) : Congruence (SameText owners) where
  refl _ := rfl
  ptr h := by rw [SameText, render, render, h]
  byRef h := by rw [SameText, render, render, h]
  pinned h := by rw [SameText, render, render, h]
  szArray h := by rw [SameText, render, render, h]
  array h := by rw [SameText, render, render, h]
  modReqd h := by rw [SameText, render, render, h]
  modOpt h := by rw [SameText, render, render, h]
  genericInst h := by rw [SameText, render, render, renderEach_of_sameText h]

end Sig

/-! ## Without owners -/

/-- The leaf without the owner of a type parameter. -/
def Leaf.withoutOwner : Leaf → Leaf
  | .typeParam _ number => .typeParam none number
  | l => l

namespace Shown

mutual

/-- What is shown, without the owners of type parameters. -/
def withoutOwners : Shown → Shown
  | .leaf l => .leaf l.withoutOwner
  | .marked element m => .marked element.withoutOwners m
  | .inst generic args => .inst generic.withoutOwners (eachWithoutOwners args)

def eachWithoutOwners : List Shown → List Shown
  | [] => []
  | a :: rest => a.withoutOwners :: eachWithoutOwners rest

end

end Shown

namespace Sig

variable {owners : Bool} {s t : Sig}

theorem withoutOwners_shown (owners : Bool) (s : Sig) :
    (s.shown owners).withoutOwners = s.shown false := by
  induction s using Sig.rec (motive_2 := fun ss =>
      Shown.eachWithoutOwners (shownEach owners ss) = shownEach false ss) with
  | nil => rfl
  | cons s rest ihs ih => rw [shownEach, shownEach, Shown.eachWithoutOwners, ihs, ih]
  | ptr next ih | byRef next ih | szArray next ih | array next _ _ _ ih | modReqd _ next ih
  | modOpt _ next ih => rw [shown, shown, Shown.withoutOwners, ih]
  | pinned next ih => rw [shown, shown, ih]
  | genericInst generic args ihg ih => rw [shown, shown, Shown.withoutOwners, ihg, ih]
  | _ => rfl

/-- What shows the same with owners does without them. -/
theorem KeyEquivalent.withoutOwners (h : s.KeyEquivalent owners t) : s.KeyEquivalent false t := by
  rw [KeyEquivalent, ← withoutOwners_shown owners s, ← withoutOwners_shown owners t, h]

/-- Owners can always be written. -/
theorem hasText_iff_of_owners (owners owners' : Bool) (s : Sig) :
    s.HasText owners ↔ s.HasText owners' := by
  induction s using Sig.rec (motive_2 := fun ss =>
      (∀ s ∈ ss, s.HasText owners) ↔ ∀ s ∈ ss, s.HasText owners') with
  | nil => simp
  | cons s rest ihs ih => rw [List.forall_mem_cons, List.forall_mem_cons, ihs, ih]
  | ptr next ih | byRef next ih | pinned next ih | szArray next ih | modReqd _ next ih
  | modOpt _ next ih => simpa using ih
  | array next _ _ _ ih => rw [hasText_array, hasText_array, ih]
  | genericInst generic args ihg ih => rw [hasText_genericInst, hasText_genericInst, ihg, ih]
  | typeParam number owner => exact iff_of_true hasText_typeParam hasText_typeParam
  | _ => rfl

/-- What shows the same is written the same without owners, if both can be written. -/
theorem KeyEquivalent.sameText (h : s.KeyEquivalent owners t) (hs : s.HasText owners)
    (ht : t.HasText owners) : s.SameText false t := by
  obtain ⟨x, hx⟩ := (hasText_iff_of_owners owners false s).1 hs
  obtain ⟨y, hy⟩ := (hasText_iff_of_owners owners false t).1 ht
  have hxy : x.toList = y.toList := by
    rw [toList_of_render s hx, toList_of_render t hy, h.withoutOwners]
  rw [SameText, hx, hy, String.toList_injective hxy]

end Sig

/-! ## Related arguments -/

namespace Binding

/-- The same parameters are in scope, and their arguments are related. -/
inductive Related (R : Sig → Sig → Prop) : Binding → Binding → Prop where
  | ofType {type : TypeDefId} {typeArgs typeArgs' : List Sig} :
      List.Forall₂ R typeArgs typeArgs' →
      Related R (.ofType type typeArgs) (.ofType type typeArgs')
  | ofMethod {type : TypeDefId} {typeArgs typeArgs' : List Sig} {method : MethodDefId}
      {args args' : List Sig} :
      List.Forall₂ R typeArgs typeArgs' → List.Forall₂ R args args' →
      Related R (.ofMethod type typeArgs method args) (.ofMethod type typeArgs' method args')

variable {R : Sig → Sig → Prop} {b b' : Binding}

theorem exists_pick {args args' : List Sig} (h : List.Forall₂ R args args') {level : ParamLevel}
    {number : Nat} {x : Option Sig} (hx : (pick args level number).map some = .ok x) (s : Sig) :
    ∃ x', (pick args' level number).map some = .ok x' ∧ R (x.getD s) (x'.getD s) := by
  obtain ⟨a, ha, rfl⟩ := exists_of_map_ok hx
  rw [pick] at ha
  split at ha
  · rename_i hn
    cases ha
    obtain ⟨hlt, rfl⟩ := List.getElem?_eq_some_iff.1 hn
    have hlt' : number < args'.length := h.length_eq ▸ hlt
    refine ⟨some args'[number], ?_, h.get hlt hlt'⟩
    rw [pick, List.getElem?_eq_getElem hlt']
    rfl
  · cases ha

/-- Related bindings replace a parameter alike, or both leave it. -/
theorem Related.exists_lookup (h : b.Related R b') (hr : ∀ s, R s s) {s : Sig} {x : Option Sig}
    (hx : b.lookup s = .ok x) : ∃ x', b'.lookup s = .ok x' ∧ R (x.getD s) (x'.getD s) := by
  cases s with
  | typeParam number owner =>
    cases h with
    | ofType ht | ofMethod ht _ =>
      rw [Binding.lookup, typeArg] at hx ⊢
      split at hx
      · rename_i ho
        rw [if_pos ho]
        exact exists_pick ht hx _
      · rename_i ho
        rw [if_neg ho]
        cases hx
        exact ⟨none, rfl, hr _⟩
  | methodParam number owner =>
    cases h with
    | ofType _ =>
      cases hx
      exact ⟨none, rfl, hr _⟩
    | ofMethod _ hm =>
      rw [Binding.lookup, methodArg] at hx ⊢
      split at hx
      · rename_i ho
        rw [if_pos ho]
        exact exists_pick hm hx _
      · rename_i ho
        rw [if_neg ho]
        cases hx
        exact ⟨none, rfl, hr _⟩
  | _ =>
    cases hx
    exact ⟨none, rfl, hr _⟩

end Binding

namespace Sig

variable {R : Sig → Sig → Prop} {b b' : Binding}

theorem exists_map_related {α β : Type} {Q : α → α → Prop} {P : β → β → Prop}
    {r r' : Except Error α} {f : α → β} {y : β}
    (h : ∀ a, r = .ok a → ∃ a', r' = .ok a' ∧ Q a a') (hy : r.map f = .ok y)
    (hf : ∀ a a', Q a a' → P (f a) (f a')) : ∃ y', r'.map f = .ok y' ∧ P y y' := by
  obtain ⟨a, ha, rfl⟩ := exists_of_map_ok hy
  obtain ⟨a', rfl, hq⟩ := h a ha
  exact ⟨f a', rfl, hf a a' hq⟩

theorem Congruence.exists_replace (hc : Congruence R) (h : b.Related R b') (s : Sig) :
    ∀ t, s.replace b = .ok t → ∃ t', s.replace b' = .ok t' ∧ R t t' := by
  induction s using Sig.rec (motive_2 := fun ss => ∀ ts, replaceList b ss = .ok ts →
      ∃ ts', replaceList b' ss = .ok ts' ∧ List.Forall₂ R ts ts') with
  | nil ts hs =>
    cases hs
    exact ⟨[], rfl, .nil⟩
  | cons s rest ihs ih ts hs =>
    rw [replaceList] at hs
    split at hs
    · cases hs
    · rename_i t ht
      obtain ⟨us, hus, rfl⟩ := exists_of_map_ok hs
      obtain ⟨t', ht', hr⟩ := ihs t ht
      obtain ⟨us', hus', hrs⟩ := ih us hus
      refine ⟨t' :: us', ?_, .cons hr hrs⟩
      rw [replaceList, ht', hus']
      rfl
  | ptr next ih =>
    intro t ht
    rw [replace] at ht ⊢
    exact exists_map_related ih ht fun _ _ => hc.ptr
  | byRef next ih =>
    intro t ht
    rw [replace] at ht ⊢
    exact exists_map_related ih ht fun _ _ => hc.byRef
  | pinned next ih =>
    intro t ht
    rw [replace] at ht ⊢
    exact exists_map_related ih ht fun _ _ => hc.pinned
  | szArray next ih =>
    intro t ht
    rw [replace] at ht ⊢
    exact exists_map_related ih ht fun _ _ => hc.szArray
  | array next _ _ _ ih =>
    intro t ht
    rw [replace] at ht ⊢
    exact exists_map_related ih ht fun _ _ => hc.array
  | modReqd _ next ih =>
    intro t ht
    rw [replace] at ht ⊢
    exact exists_map_related ih ht fun _ _ => hc.modReqd
  | modOpt _ next ih =>
    intro t ht
    rw [replace] at ht ⊢
    exact exists_map_related ih ht fun _ _ => hc.modOpt
  | genericInst generic args _ ih =>
    intro t ht
    rw [replace] at ht ⊢
    exact exists_map_related ih ht fun _ _ => hc.genericInst
  | typeParam number owner =>
    intro t ht
    obtain ⟨x, hx, rfl⟩ := exists_of_map_ok ht
    obtain ⟨x', hx', hr⟩ := h.exists_lookup hc.refl (s := .typeParam number owner) hx
    refine ⟨_, ?_, hr⟩
    rw [replace, show b'.typeArg number owner = .ok x' from hx']
    rfl
  | methodParam number owner =>
    intro t ht
    obtain ⟨x, hx, rfl⟩ := exists_of_map_ok ht
    obtain ⟨x', hx', hr⟩ := h.exists_lookup hc.refl (s := .methodParam number owner) hx
    refine ⟨_, ?_, hr⟩
    rw [replace, show b'.methodArg number owner = .ok x' from hx']
    rfl
  | unsupported e =>
    intro t ht
    cases ht
  | _ =>
    intro t ht
    cases ht
    exact ⟨_, rfl, hc.refl _⟩

/-- Substituting related arguments makes related signatures, and fails for neither or for both. -/
theorem Congruence.exists_substitute (hc : Congruence R) (h : b.Related R b') {s t : Sig}
    (ht : s.substitute b = .ok t) : ∃ t', s.substitute b' = .ok t' ∧ R t t' := by
  rw [substitute] at ht ⊢
  split at ht
  · rename_i hp
    rw [if_pos hp]
    exact hc.exists_replace h s t ht
  · rename_i hp
    rw [if_neg hp]
    cases ht
    exact ⟨s, rfl, hc.refl s⟩

theorem Congruence.exists_substituteAll (hc : Congruence R) (h : b.Related R b')
    {ss ts : List Sig} (ht : ss.mapM (substitute b) = .ok ts) :
    ∃ ts', ss.mapM (substitute b') = .ok ts' ∧ List.Forall₂ R ts ts' := by
  induction ss generalizing ts with
  | nil =>
    cases ht
    exact ⟨[], rfl, .nil⟩
  | cons s ss ih =>
    rw [List.mapM_cons] at ht
    obtain ⟨t, hs, ht⟩ := exists_of_bind_ok ht
    obtain ⟨us, hss, ht⟩ := exists_of_bind_ok ht
    cases ht
    obtain ⟨t', hs', hr⟩ := hc.exists_substitute h hs
    obtain ⟨us', hss', hrs⟩ := ih hss
    refine ⟨t' :: us', ?_, .cons hr hrs⟩
    rw [List.mapM_cons, hs', hss']
    rfl

theorem Congruence.exists_substituteList (hc : Congruence R) (h : b.Related R b')
    {ss? ts? : Option (List Sig)} (ht : substituteList? (some b) ss? = .ok ts?) :
    ∃ ts?', substituteList? (some b') ss? = .ok ts?' := by
  cases ss? with
  | none => exact ⟨none, rfl⟩
  | some ss =>
    obtain ⟨ts, hts, rfl⟩ := exists_of_map_ok ht
    obtain ⟨ts', hts', _⟩ := hc.exists_substituteAll h hts
    refine ⟨some ts', ?_⟩
    show (ss.mapM (substitute b')).map some = _
    rw [hts']
    rfl

end Sig
end Monomorph
