import Monomorph.Proofs.Signature.Composition

/-!
# Monomorph.Proofs.Signature.Meaning

What a substitution does, without the functions that do it.

A binding covers the parameters of its type and of its method: `Binding.slot?` tells on which list
the argument of such a parameter stands, and `Binding.put` is that argument, or the node itself if
it is not covered. A leaf offends (`Binding.Offends`) if it is an element that is not handled, or a
covered parameter whose number lies outside its list.

* `Sig.replace_eq_error_iff`, `Sig.exists_replace_iff`: replacing fails with the first leaf that
  offends, and succeeds if there is none.
* `Sig.rewrites_put_of_substitute`: if a substitution succeeds, every parameter is exchanged for
  what `Binding.put` says, and all else stays.
* `Sig.substitute_exact`: both together; a substitution never fails without a parameter.
-/

namespace Monomorph

/-! ## Parameters in scope -/

/-- The place of an argument: the level and number of its parameter, and the list it stands on. -/
structure Slot where
  level : ParamLevel
  number : Nat
  args : List Sig

namespace Binding

/-- The place of the argument of a parameter in scope. -/
def slot? : Binding → Sig → Option Slot
  | ofType type args, .typeParam number owner =>
    if owner.id = type then some ⟨.type, number, args⟩ else none
  | ofMethod type args _ _, .typeParam number owner =>
    if owner.id = type then some ⟨.type, number, args⟩ else none
  | ofMethod _ _ method args, .methodParam number owner =>
    if owner = method then some ⟨.method, number, args⟩ else none
  | _, _ => none

/-- What stands in the place of a node: its argument, or the node itself if it has none. -/
def put (b : Binding) (x : Sig) : Sig :=
  ((b.slot? x).bind fun p => p.args[p.number]?).getD x

/-- The leaf cannot be replaced, for that reason. -/
inductive Offends (b : Binding) : Sig → Error → Prop where
  | unsupported (e : ElementType) : b.Offends (.unsupported e) (.unsupportedElement e)
  | outOfRange {x : Sig} {p : Slot} : b.slot? x = some p → p.args.length ≤ p.number →
      b.Offends x (.argOutOfRange p.level p.number p.args.length)

/-- The first of the leaves that offends does so for that reason. -/
def FirstOffence (b : Binding) (leaves : List Sig) (e : Error) : Prop :=
  ∃ before x after, leaves = before ++ x :: after ∧ (∀ y ∈ before, ∀ f, ¬b.Offends y f) ∧
    b.Offends x e

variable {b : Binding} {x y : Sig} {e : Error}

theorem slot?_eq_none_iff : b.slot? x = none ↔ ¬b.Covers x := by
  cases b with
  | ofType type args => cases x <;> simp [slot?, Covers]
  | ofMethod type args method methodArgs => cases x <;> simp [slot?, Covers]

theorem slot?_of_not_param (h : x.isParam = false) : b.slot? x = none := by
  cases x with
  | typeParam number owner => cases h
  | methodParam number owner => cases h
  | _ => cases b <;> rfl

/-- What is not covered stays. -/
theorem put_of_not_covers (h : ¬b.Covers x) : b.put x = x := by
  rw [put, slot?_eq_none_iff.2 h]
  rfl

/-- Looking up a node is looking at its place. -/
theorem lookup_eq (b : Binding) (x : Sig) :
    b.lookup x = match b.slot? x with
      | none => .ok none
      | some p => (pick p.args p.level p.number).map some := by
  cases b with
  | ofType type args =>
    cases x with
    | typeParam number owner =>
      rw [lookup, typeArg, slot?]
      split <;> rfl
    | _ => rfl
  | ofMethod type args method methodArgs =>
    cases x with
    | typeParam number owner =>
      rw [lookup, typeArg, slot?]
      split <;> rfl
    | methodParam number owner =>
      rw [lookup, methodArg, slot?]
      split <;> rfl
    | _ => rfl

theorem lookup_eq_error_iff :
    b.lookup x = .error e ↔ ∃ p, b.slot? x = some p ∧ p.args.length ≤ p.number ∧
      e = .argOutOfRange p.level p.number p.args.length := by
  rw [lookup_eq]
  cases b.slot? x with
  | none => simp
  | some p =>
    by_cases hn : p.number < p.args.length
    · have hl : ¬p.args.length ≤ p.number := by omega
      simp [pick, Except.map, hn, hl]
    · have hl : p.args.length ≤ p.number := by omega
      simp [pick, Except.map, hl, eq_comm]

theorem put_of_lookup {a : Option Sig} (h : b.lookup x = .ok a) : b.put x = a.getD x := by
  rw [lookup_eq] at h
  rw [put]
  split at h
  · rename_i hs
    cases h
    rw [hs]
    rfl
  · rename_i p hs
    obtain ⟨y, hy, rfl⟩ := exists_of_map_ok h
    rw [pick] at hy
    split at hy
    · rename_i z hz
      cases hy
      rw [hs]
      show (p.args[p.number]?).getD x = y
      rw [hz]
      rfl
    · cases hy

theorem offends_iff_of_lookup (h : ∀ f, x ≠ .unsupported f) :
    b.Offends x e ↔ b.lookup x = .error e := by
  rw [lookup_eq_error_iff]
  constructor
  · intro ho
    cases ho with
    | unsupported f => exact absurd rfl (h f)
    | outOfRange hp hl => exact ⟨_, hp, hl, rfl⟩
  · rintro ⟨p, hp, hl, rfl⟩
    exact .outOfRange hp hl

theorem offends_unsupported_iff {f : ElementType} :
    b.Offends (.unsupported f) e ↔ e = .unsupportedElement f := by
  constructor
  · intro h
    cases h with
    | unsupported => rfl
    | outOfRange hp _ =>
      rw [slot?_of_not_param rfl] at hp
      cases hp
  · rintro rfl
    exact .unsupported f

theorem gives_put (hp : x.isParam = true) (h : ∀ f, ¬b.Offends x f) : b.Gives x (b.put x) := by
  have hx : ∀ f, x ≠ .unsupported f := by
    rintro f rfl
    cases hp
  cases ha : b.lookup x with
  | error f => exact absurd ((offends_iff_of_lookup hx).2 ha) (h f)
  | ok a => exact ⟨a, ha, put_of_lookup ha⟩

/-- Replacing a leaf fails if the leaf offends. -/
theorem leavesAt_eq_error_iff : b.leavesAt x = .error e ↔ b.Offends x e := by
  by_cases h : ∃ f, x = .unsupported f
  · obtain ⟨f, rfl⟩ := h
    rw [offends_unsupported_iff]
    simp [leavesAt, eq_comm]
  · have hx : ∀ f, x ≠ .unsupported f := fun f hf => h ⟨f, hf⟩
    rw [offends_iff_of_lookup hx, leavesAt, map_eq_error_iff]
    exact hx

theorem exists_leavesAt_iff : (∃ ls, b.leavesAt x = .ok ls) ↔ ∀ f, ¬b.Offends x f := by
  simp only [← leavesAt_eq_error_iff]
  cases b.leavesAt x <;> simp

end Binding

namespace Sig

variable {b : Binding} {s t : Sig} {e : Error}

/-! ## Replacing -/

/-- Replacing fails with the first leaf that offends. -/
theorem replace_eq_error_iff : s.replace b = .error e ↔ b.FirstOffence s.leaves e := by
  rw [← map_eq_error_iff (f := leaves), leaves_replace, map_eq_error_iff, mapM_eq_error_iff]
  simp only [Binding.FirstOffence, Binding.exists_leavesAt_iff, Binding.leavesAt_eq_error_iff]

/-- Replacing succeeds if no leaf offends. -/
theorem exists_replace_iff :
    (∃ t, s.replace b = .ok t) ↔ ∀ x ∈ s.leaves, ∀ f, ¬b.Offends x f := by
  rw [← exists_map_ok_iff (f := leaves), leaves_replace, exists_map_ok_iff, exists_mapM_ok_iff]
  simp only [Binding.exists_leavesAt_iff]

/-! ## Parameters -/

/-- The parameters that are met, from left to right. -/
def params (s : Sig) : List Sig :=
  s.leaves.filter isParam

theorem params_eq_nil_iff : s.params = [] ↔ s.hasParam = false := by
  rw [← closed_iff_hasParam, params, List.filter_eq_nil_iff]
  simp only [Closed, Bool.not_eq_true]

theorem params_of_param (h : s.isParam = true) : s.params = [s] := by
  cases s with
  | typeParam number owner => rfl
  | methodParam number owner => rfl
  | _ => cases h

/-- An exchange by a function exchanges the parameters one by one. -/
theorem Rewrites.params_eq {f : Sig → Sig} (h : s.Rewrites (fun x y => y = f x) t) :
    t.params = s.params.flatMap fun x => (f x).params := by
  induction h using Rewrites.rec (motive_2 := fun ss ts _ =>
      (leavesOfList ts).filter isParam =
        ((leavesOfList ss).filter isParam).flatMap fun x => (f x).params) with
  | param hp hr =>
    rw [params_of_param hp, hr, List.flatMap_singleton]
  | ptr _ ih | byRef _ ih | pinned _ ih | szArray _ ih | array _ _ _ _ ih | modReqd _ _ ih
  | modOpt _ _ ih | genericInst _ _ ih => exact ih
  | cons _ _ ihs ih =>
    rw [leavesOfList, leavesOfList, List.filter_append, List.filter_append, List.flatMap_append,
      ← ih, ← params, ihs, params]
  | _ => rfl

/-! ## Substituting -/

theorem rewrites_put_of_substitute (h : s.substitute b = .ok t) :
    s.Rewrites (fun x y => y = b.put x) t := by
  refine (rewrites_of_substitute h).imp ?_
  rintro x _ _ y ⟨a, ha, rfl⟩
  exact (Binding.put_of_lookup ha).symm

theorem substitute_eq_error_iff :
    s.substitute b = .error e ↔ s.params ≠ [] ∧ b.FirstOffence s.leaves e := by
  rw [Ne, params_eq_nil_iff, ← replace_eq_error_iff, substitute]
  cases s.hasParam <;> simp

theorem exists_substitute_iff : (∃ t, s.substitute b = .ok t) ↔
    s.params = [] ∨ ∀ x ∈ s.leaves, ∀ f, ¬b.Offends x f := by
  rw [params_eq_nil_iff, ← exists_replace_iff, substitute]
  cases s.hasParam <;> simp

/-- Whatever exchanges the parameters as the binding says is the result of the substitution. -/
theorem substitute_of_rewrites_put (hs : ∃ t, s.substitute b = .ok t)
    (h : s.Rewrites (fun x y => y = b.put x) t) : s.substitute b = .ok t := by
  obtain ⟨u, hu⟩ := hs
  refine substitute_of_rewrites (h.imp ?_) hu
  rintro x hx hp _ rfl
  have hparams : s.params ≠ [] := List.ne_nil_of_mem (List.mem_filter.2 ⟨hx, hp⟩)
  have hoffends := (exists_substitute_iff.1 ⟨u, hu⟩).resolve_left hparams x hx
  exact Binding.gives_put hp hoffends

/-- A substitution fails iff there are a parameter and a leaf that offends, with the error of the
first such leaf. Otherwise it exchanges each parameter in scope for the argument of its number and
leaves all else. -/
theorem substitute_exact (b : Binding) (s : Sig) :
    ((∃ e, s.substitute b = .error e) ↔
      s.params ≠ [] ∧ ∃ x ∈ s.leaves, ∃ e, b.Offends x e) ∧
    (∀ e, s.substitute b = .error e ↔ s.params ≠ [] ∧ b.FirstOffence s.leaves e) ∧
    ∀ t, s.substitute b = .ok t ↔
      (s.params = [] ∨ ∀ x ∈ s.leaves, ∀ e, ¬b.Offends x e) ∧
      s.Rewrites (fun x y => y = b.put x) t ∧
      t.params = s.params.flatMap fun x => (b.put x).params := by
  refine ⟨?_, fun _ => substitute_eq_error_iff, ?_⟩
  · have hfails : (∃ e, s.substitute b = .error e) ↔ ¬∃ t, s.substitute b = .ok t := by
      cases s.substitute b <;> simp
    rw [hfails, exists_substitute_iff]
    push Not
    rfl
  · intro t
    rw [← exists_substitute_iff]
    constructor
    · intro h
      have hr := rewrites_put_of_substitute h
      exact ⟨⟨t, h⟩, hr, hr.params_eq⟩
    · rintro ⟨hs, hr, _⟩
      exact substitute_of_rewrites_put hs hr

/-- The leaf that comes first counts, though it stands deeper. -/
example : (genericInst (.classType ⟨1, "Demo", "Map", false⟩)
    [.ptr (.szArray (typeParam 3 ⟨0, "Demo", "Box", false⟩)), .unsupported .fnPtr]).substitute
      (.ofType 0 [.primitive .int32]) = .error (.argOutOfRange .type 3 1) := rfl

end Sig
end Monomorph
