import Mathlib.Data.List.Forall2
import Monomorph.Proofs.Basic
import Monomorph.Signature.Substitution

/-!
# Monomorph.Proofs.Signature.Leaves

The leaves of a signature: the nodes without a child of their own, from left to right. The generic
type of an instance is not looked into, only its arguments are; so the parameters among the leaves
are those that a substitution meets.

* `hasParam_eq_any`: `Sig.hasParam` looks for a parameter among the leaves.
* `leaves_replace`: replacing puts the leaves of an argument where a parameter in scope was, and
  changes no other leaf.
* `param_of_substitute`: so, under arguments without parameters, a parameter that is met in the
  result was met before and is out of scope.
-/

namespace Monomorph
namespace Sig

mutual

def leaves : Sig → List Sig
  | .primitive p => [.primitive p]
  | .classType t => [.classType t]
  | .valueType t => [.valueType t]
  | .ptr next => next.leaves
  | .byRef next => next.leaves
  | .pinned next => next.leaves
  | .szArray next => next.leaves
  | .array element _ _ _ => element.leaves
  | .modReqd _ next => next.leaves
  | .modOpt _ next => next.leaves
  | .genericInst _ args => leavesOfList args
  | .typeParam number owner => [.typeParam number owner]
  | .methodParam number owner => [.methodParam number owner]
  | .unsupported e => [.unsupported e]

def leavesOfList : List Sig → List Sig
  | [] => []
  | s :: rest => s.leaves ++ leavesOfList rest

end

theorem leavesOfList_eq_flatMap (ss : List Sig) : leavesOfList ss = ss.flatMap leaves := by
  induction ss with
  | nil => rfl
  | cons s rest ih => rw [leavesOfList, ih, List.flatMap_cons]

/-- No parameter is met in the signature. -/
def Closed (s : Sig) : Prop :=
  ∀ x ∈ s.leaves, x.isParam = false

theorem hasParam_eq_any (s : Sig) : s.hasParam = s.leaves.any isParam := by
  induction s using Sig.rec
    (motive_2 := fun ss => anyHasParam ss = (leavesOfList ss).any isParam) with
  | nil => rfl
  | cons s rest hs ih => rw [anyHasParam, leavesOfList, List.any_append, hs, ih]
  | ptr _ ih | byRef _ ih | pinned _ ih | szArray _ ih => exact ih
  | array _ _ _ _ ih => exact ih
  | modReqd _ _ ih | modOpt _ _ ih => exact ih
  | genericInst _ _ _ ih => exact ih
  | _ => rfl

theorem closed_iff_hasParam {s : Sig} : s.Closed ↔ s.hasParam = false := by
  rw [hasParam_eq_any, List.any_eq_false]
  simp only [Closed, Bool.not_eq_true]

theorem closed_of_anyHasParam {ss : List Sig} (h : anyHasParam ss = false) :
    ∀ s ∈ ss, s.Closed := by
  rw [anyHasParam_eq_any, List.any_eq_false] at h
  intro s hs
  exact closed_iff_hasParam.2 (Bool.not_eq_true _ ▸ h s hs)

theorem hasParam_of_isConcrete (s : Sig) : s.isConcrete = .ok true → s.hasParam = false := by
  induction s using Sig.rec
    (motive_2 := fun ss => areConcrete ss = .ok true → anyHasParam ss = false) with
  | nil _ => rfl
  | cons s rest hs ih h =>
    rw [areConcrete] at h
    split at h
    · cases h
    · cases h
    · rename_i hc
      rw [anyHasParam, hs hc, ih h]
      rfl
  | ptr _ ih | byRef _ ih | pinned _ ih | szArray _ ih => exact ih
  | array _ _ _ _ ih => exact ih
  | modReqd _ _ ih | modOpt _ _ ih => exact ih
  | genericInst _ _ _ ih => exact ih
  | typeParam _ _ | methodParam _ _ =>
    intro h
    cases h
  | _ => exact fun _ => rfl

/-- Type arguments that pass as concrete contain no parameter. -/
theorem closed_of_areConcrete {ss : List Sig} (h : areConcrete ss = .ok true) :
    ∀ s ∈ ss, s.Closed := by
  have hg := hasParam_of_isConcrete (.genericInst (.primitive .void) ss) h
  exact closed_of_anyHasParam hg

end Sig

/-! ## Replacing -/

namespace Binding

def args : Binding → List Sig
  | ofType _ typeArgs => typeArgs
  | ofMethod _ typeArgs _ methodArgs => typeArgs ++ methodArgs

/-- What stands for a leaf after replacing. -/
def leavesAt (b : Binding) : Sig → Except Error (List Sig)
  | .unsupported e => .error (.unsupportedElement e)
  | leaf => (b.lookup leaf).map fun a => (a.map Sig.leaves).getD [leaf]

theorem mem_of_pick {args : List Sig} {level : ParamLevel} {number : Nat} {a : Sig}
    (h : (pick args level number).map some = .ok (some a)) : a ∈ args := by
  obtain ⟨a', ha, hs⟩ := exists_of_map_ok h
  cases hs
  rw [pick] at ha
  split at ha
  · rename_i hx
    cases ha
    exact List.mem_of_getElem? hx
  · cases ha

theorem pick_ne_none (args : List Sig) (level : ParamLevel) (number : Nat) :
    (pick args level number).map some ≠ .ok none := by
  intro h
  obtain ⟨a, _, ha⟩ := exists_of_map_ok h
  cases ha

/-- What is looked up for a leaf is an argument. -/
theorem mem_args_of_lookup {b : Binding} {x a : Sig} (h : b.lookup x = .ok (some a)) :
    a ∈ b.args := by
  cases x with
  | typeParam number owner =>
    cases b with
    | ofType type typeArgs =>
      rw [lookup, typeArg] at h
      split at h
      · exact mem_of_pick h
      · cases h
    | ofMethod type typeArgs method methodArgs =>
      rw [lookup, typeArg] at h
      split at h
      · exact List.mem_append_left _ (mem_of_pick h)
      · cases h
  | methodParam number owner =>
    cases b with
    | ofType type typeArgs => cases h
    | ofMethod type typeArgs method methodArgs =>
      rw [lookup, methodArg] at h
      split at h
      · exact List.mem_append_right _ (mem_of_pick h)
      · cases h
  | _ => cases h

/-- A leaf of the result stands for itself or belongs to an argument. -/
theorem mem_leavesAt {b : Binding} {x y : Sig} {ls : List Sig} (h : b.leavesAt x = .ok ls)
    (hy : y ∈ ls) : y = x ∧ b.lookup x = .ok none ∨ ∃ a ∈ b.args, y ∈ a.leaves := by
  have hl : (b.lookup x).map (fun a => (a.map Sig.leaves).getD [x]) = .ok ls := by
    cases x with
    | unsupported e => cases h
    | _ => exact h
  obtain ⟨a, ha, rfl⟩ := exists_of_map_ok hl
  cases a with
  | none => exact .inl ⟨List.mem_singleton.1 hy, ha⟩
  | some a => exact .inr ⟨a, mem_args_of_lookup ha, hy⟩

end Binding

namespace Sig

/-- Replacing works leaf by leaf, from left to right, and fails with the first leaf that fails. -/
theorem leaves_replace (b : Binding) (s : Sig) :
    (s.replace b).map leaves = (s.leaves.mapM b.leavesAt).map List.flatten := by
  induction s using Sig.rec (motive_2 := fun ss =>
    (replaceList b ss).map leavesOfList = ((leavesOfList ss).mapM b.leavesAt).map List.flatten) with
  | nil => rfl
  | cons s rest hs ih =>
    calc (replaceList b (s :: rest)).map leavesOfList
        = ((s.replace b).map leaves >>= fun l =>
            (replaceList b rest).map leavesOfList >>= fun k => pure (l ++ k)) := by
          rw [replaceList]
          cases s.replace b with
          | error e => rfl
          | ok t => cases replaceList b rest <;> rfl
      _ = ((leavesOfList (s :: rest)).mapM b.leavesAt).map List.flatten := by
          rw [hs, ih, leavesOfList, List.mapM_append]
          cases s.leaves.mapM b.leavesAt with
          | error e => rfl
          | ok ls =>
            cases (leavesOfList rest).mapM b.leavesAt with
            | error e => rfl
            | ok ks => exact congrArg Except.ok List.flatten_append.symm
  | ptr next ih | byRef next ih | pinned next ih | szArray next ih | array next _ _ _ ih
  | modReqd _ next ih | modOpt _ next ih =>
    refine Eq.trans ?_ ih
    rw [replace]
    cases next.replace b <;> rfl
  | genericInst generic args _ ih =>
    refine Eq.trans ?_ ih
    rw [replace]
    cases replaceList b args <;> rfl
  | typeParam number owner =>
    rw [replace, leaves, List.mapM_cons, Binding.leavesAt, Binding.lookup]
    · rcases b.typeArg number owner with e | (_ | a)
      · rfl
      · rfl
      · exact congrArg Except.ok (List.append_nil _).symm
    · intro e h
      cases h
  | methodParam number owner =>
    rw [replace, leaves, List.mapM_cons, Binding.leavesAt, Binding.lookup]
    · rcases b.methodArg number owner with e | (_ | a)
      · rfl
      · rfl
      · exact congrArg Except.ok (List.append_nil _).symm
    · intro e h
      cases h
  | _ => rfl

/-- Under arguments without parameters, a parameter of the result is one that was there before and
is out of scope. -/
theorem param_of_substitute {b : Binding} {s t x : Sig} (h : s.substitute b = .ok t)
    (hb : ∀ a ∈ b.args, a.Closed) (hx : x ∈ t.leaves) (hp : x.isParam = true) :
    x ∈ s.leaves ∧ b.lookup x = .ok none := by
  rw [substitute] at h
  split at h
  · have hl := leaves_replace b s
    rw [h] at hl
    obtain ⟨ls, hls, ht⟩ := exists_of_map_ok hl.symm
    rw [← ht, List.mem_flatten] at hx
    obtain ⟨l, hl, hx⟩ := hx
    obtain ⟨y, hy, hyl⟩ := exists_of_mem_mapM_ok hls hl
    rcases Binding.mem_leavesAt hyl hx with ⟨rfl, hn⟩ | ⟨a, ha, hxa⟩
    · exact ⟨hy, hn⟩
    · rw [hb a ha x hxa] at hp
      cases hp
  · rename_i hn
    cases h
    have hc := closed_iff_hasParam.2 (Bool.not_eq_true _ ▸ hn) x hx
    rw [hp] at hc
    cases hc

end Sig
end Monomorph
