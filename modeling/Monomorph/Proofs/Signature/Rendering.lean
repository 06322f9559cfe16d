import Monomorph.Proofs.Basic
import Monomorph.Signature.Render
import Monomorph.Signature.Substitution

/-!
# Monomorph.Proofs.Signature.Rendering

Which signatures can be written.

Writing fails at an element that is not handled and at an array without dimensions, and nowhere
else; the lemmas `hasText_ptr` to `hasText_genericInst` say so for each kind of node.
-/

namespace Monomorph

theorem exists_arraySuffix_iff {rank : Nat} {sizes : List Nat} {lowerBounds : List Int} :
    (∃ x, arraySuffix rank sizes lowerBounds = .ok x) ↔ rank ≠ 0 := by
  unfold arraySuffix
  split
  · simp
  · simp
  · rename_i h _
    simpa using h

namespace Sig

/-- The signature can be written, with or without owners. -/
def HasText (owners : Bool) (s : Sig) : Prop :=
  ∃ x, s.render owners = .ok x

variable {owners : Bool} {s next element generic : Sig} {args ss : List Sig} {number rank : Nat}
  {sizes : List Nat} {lowerBounds : List Int} {owner modifier : TypeRef}

@[simp] theorem hasText_ptr : (ptr next).HasText owners ↔ next.HasText owners := by
  simp only [HasText, render, exists_map_ok_iff]

@[simp] theorem hasText_byRef : (byRef next).HasText owners ↔ next.HasText owners := by
  simp only [HasText, render, exists_map_ok_iff]

@[simp] theorem hasText_pinned : (pinned next).HasText owners ↔ next.HasText owners := by
  simp only [HasText, render]

@[simp] theorem hasText_szArray : (szArray next).HasText owners ↔ next.HasText owners := by
  simp only [HasText, render, exists_map_ok_iff]

@[simp] theorem hasText_modReqd :
    (modReqd modifier next).HasText owners ↔ next.HasText owners := by
  simp only [HasText, render, exists_map_ok_iff]

@[simp] theorem hasText_modOpt :
    (modOpt modifier next).HasText owners ↔ next.HasText owners := by
  simp only [HasText, render, exists_map_ok_iff]

@[simp] theorem hasText_array : (array element rank sizes lowerBounds).HasText owners ↔
    element.HasText owners ∧ rank ≠ 0 := by
  simp only [HasText, render]
  cases element.render owners with
  | error e => simp
  | ok text => simp [exists_map_ok_iff, exists_arraySuffix_iff]

theorem renderEach_eq_mapM (owners : Bool) (ss : List Sig) :
    renderEach owners ss = ss.mapM (render owners) := by
  induction ss with
  | nil => rfl
  | cons s rest ih =>
    rw [renderEach, List.mapM_cons, ih]
    cases s.render owners with
    | error e => rfl
    | ok x => cases rest.mapM (render owners) <;> rfl

theorem exists_renderEach_iff :
    (∃ xs, renderEach owners ss = .ok xs) ↔ ∀ s ∈ ss, s.HasText owners := by
  rw [renderEach_eq_mapM]
  exact exists_mapM_ok_iff

theorem exists_renderList_iff :
    (∃ x, renderList owners ss = .ok x) ↔ ∀ s ∈ ss, s.HasText owners := by
  simp only [renderList, exists_map_ok_iff, exists_renderEach_iff]

@[simp] theorem hasText_genericInst : (genericInst generic args).HasText owners ↔
    generic.HasText owners ∧ ∀ a ∈ args, a.HasText owners := by
  simp only [HasText, render]
  cases generic.render owners with
  | error e => simp
  | ok text => simp [exists_map_ok_iff, exists_renderEach_iff, HasText]

theorem hasText_typeParam : (typeParam number owner).HasText owners :=
  ⟨_, rfl⟩

theorem hasText_methodParam {owner : MethodDefId} : (methodParam number owner).HasText owners :=
  ⟨_, rfl⟩

end Sig
end Monomorph
