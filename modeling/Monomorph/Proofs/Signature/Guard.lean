import Monomorph.Proofs.Signature.Meaning

/-!
# Monomorph.Proofs.Signature.Guard

The guard of a substitution: a signature without parameters is not rewritten at all.

`Sig.Visits` tells which nodes a walk through a signature meets, by single children and arguments.

* `hasParam_iff_visits`: the guard looks at exactly these nodes.
* `substitute_eq_replace_iff`: so with or without the guard the result is the same, except for a
  signature that has no parameter and an element that is not handled.
-/

namespace Monomorph
namespace Sig

/-! ## The nodes that are met -/

/-- The node is met on the way down: the signature itself, what its single child meets, and what
its arguments meet. The generic type of an instance is passed by. -/
inductive Visits : Sig → Sig → Prop where
  | self (s : Sig) : Visits s s
  | next {s child x : Sig} : s.next? = some child → Visits child x → Visits s x
  | arg {generic a x : Sig} {args : List Sig} : a ∈ args → Visits a x →
      Visits (.genericInst generic args) x

variable {s x : Sig}

theorem leaves_of_next? {child : Sig} (h : s.next? = some child) : s.leaves = child.leaves := by
  cases s <;> cases h <;> rfl

theorem Visits.leaves_subset (h : s.Visits x) : x.leaves ⊆ s.leaves := by
  induction h with
  | self s => exact List.Subset.refl _
  | next hn _ ih =>
    rw [leaves_of_next? hn]
    exact ih
  | arg ha _ ih =>
    intro y hy
    rw [leaves, leavesOfList_eq_flatMap, List.mem_flatMap]
    exact ⟨_, ha, ih hy⟩

theorem visits_of_mem_leaves (s : Sig) : ∀ x ∈ s.leaves, s.Visits x := by
  induction s using Sig.rec
    (motive_2 := fun ss => ∀ x ∈ leavesOfList ss, ∃ a ∈ ss, a.Visits x) with
  | ptr _ ih | byRef _ ih | pinned _ ih | szArray _ ih | array _ _ _ _ ih | modReqd _ _ ih
  | modOpt _ _ ih => exact fun x hx => .next rfl (ih x hx)
  | genericInst generic args _ ih =>
    intro x hx
    obtain ⟨a, ha, hax⟩ := ih x hx
    exact .arg ha hax
  | nil x hx => cases hx
  | cons s rest ihs ih x hx =>
    rw [leavesOfList, List.mem_append] at hx
    rcases hx with hx | hx
    · exact ⟨s, List.mem_cons_self, ihs x hx⟩
    · obtain ⟨a, ha, hax⟩ := ih x hx
      exact ⟨a, List.mem_cons_of_mem s ha, hax⟩
  | _ =>
    intro x hx
    rw [List.mem_singleton.1 hx]
    exact .self _

/-- The leaves are the nodes met that are leaves themselves. -/
theorem mem_leaves_iff_visits (hx : x.leaves = [x]) : x ∈ s.leaves ↔ s.Visits x := by
  constructor
  · exact visits_of_mem_leaves s x
  · intro h
    refine h.leaves_subset ?_
    rw [hx]
    exact List.mem_singleton_self x

theorem mem_leaves_iff_of_param (hx : x.isParam = true) : x ∈ s.leaves ↔ s.Visits x := by
  refine mem_leaves_iff_visits ?_
  cases x with
  | typeParam number owner => rfl
  | methodParam number owner => rfl
  | _ => cases hx

/-- A signature has a parameter iff one is met. -/
theorem hasParam_iff_visits : s.hasParam = true ↔ ∃ x, s.Visits x ∧ x.isParam = true := by
  rw [hasParam_eq_any, List.any_eq_true]
  constructor
  · rintro ⟨x, hx, hp⟩
    exact ⟨x, (mem_leaves_iff_of_param hp).1 hx, hp⟩
  · rintro ⟨x, hx, hp⟩
    exact ⟨x, (mem_leaves_iff_of_param hp).2 hx, hp⟩

/-! ## With and without the guard -/

variable {b : Binding}

/-- Without parameters only an element that is not handled can offend. -/
theorem offends_iff_of_closed (hs : s.hasParam = false) (hx : x ∈ s.leaves) {e : Error} :
    b.Offends x e ↔ ∃ f, x = .unsupported f ∧ e = .unsupportedElement f := by
  constructor
  · intro h
    cases h with
    | unsupported f => exact ⟨f, rfl, rfl⟩
    | outOfRange hp _ =>
      rw [Binding.slot?_of_not_param (closed_iff_hasParam.2 hs x hx)] at hp
      cases hp
  · rintro ⟨f, rfl, rfl⟩
    exact .unsupported f

theorem replace_of_closed (hs : s.hasParam = false) (h : ∀ e, ¬s.Visits (.unsupported e)) :
    s.replace b = .ok s := by
  have hoffends : ∀ x ∈ s.leaves, ∀ f, ¬b.Offends x f := by
    intro x hx f hf
    obtain ⟨e, rfl, _⟩ := (offends_iff_of_closed hs hx).1 hf
    exact h e ((mem_leaves_iff_visits rfl).1 hx)
  obtain ⟨t, ht⟩ := exists_replace_iff.2 hoffends
  rw [ht, (rewrites_of_replace s t ht).eq_of_closed hs]

theorem replace_of_unsupported (hs : s.hasParam = false) {e : ElementType}
    (h : s.Visits (.unsupported e)) :
    ∃ f, s.Visits (.unsupported f) ∧ s.replace b = .error (.unsupportedElement f) := by
  have hx : .unsupported e ∈ s.leaves := (mem_leaves_iff_visits rfl).2 h
  cases hr : s.replace b with
  | ok t => exact absurd (.unsupported e) (exists_replace_iff.1 ⟨t, hr⟩ _ hx _)
  | error e' =>
    obtain ⟨before, y, after, hl, _, hy⟩ := replace_eq_error_iff.1 hr
    have hmem : y ∈ s.leaves := by
      rw [hl]
      exact List.mem_append_right _ List.mem_cons_self
    obtain ⟨f, rfl, rfl⟩ := (offends_iff_of_closed hs hmem).1 hy
    exact ⟨f, (mem_leaves_iff_visits rfl).1 hmem, rfl⟩

/-- The guard changes nothing, unless no parameter is met and an element that is not handled is:
then the signature stays as it is, and replacing would fail with such an element. -/
theorem substitute_eq_replace_iff (b : Binding) (s : Sig) :
    (s.substitute b = s.replace b ↔
      (∃ x, s.Visits x ∧ x.isParam = true) ∨ ∀ e, ¬s.Visits (.unsupported e)) ∧
    (s.substitute b ≠ s.replace b ↔
      (∀ x, s.Visits x → x.isParam = false) ∧ ∃ e, s.Visits (.unsupported e) ∧
        s.substitute b = .ok s ∧ s.replace b = .error (.unsupportedElement e)) := by
  have hnone : (∀ x, s.Visits x → x.isParam = false) ↔ s.hasParam = false := by
    rw [← Bool.not_eq_true, hasParam_iff_visits]
    simp
  rw [← hasParam_iff_visits, hnone, substitute]
  cases hs : s.hasParam with
  | true => simp
  | false =>
    by_cases h : ∃ e, s.Visits (.unsupported e)
    · obtain ⟨e, he⟩ := h
      obtain ⟨f, hf, hr⟩ := replace_of_unsupported (b := b) hs he
      have hall : ¬∀ e, ¬s.Visits (.unsupported e) := fun hn => hn e he
      simp only [hr, Bool.false_eq_true, if_false]
      refine ⟨?_, ?_⟩
      · simp [hall]
      · simp only [true_and]
        refine iff_of_true (by simp) ⟨f, hf, rfl⟩
    · have hall : ∀ e, ¬s.Visits (.unsupported e) := fun e he => h ⟨e, he⟩
      simp [replace_of_closed hs hall, hall]

end Sig
end Monomorph
