import Mathlib.Data.List.Induction
import Mathlib.Data.List.Nodup

/-!
# Monomorph.Proofs.Basic

What all proofs share.

* Results: a computation that succeeds has succeeded in each of its parts, and one that fails has
  failed in one of them, in a list in the first one that fails.
* Lists that grow at the end: positions keep their elements, an element that is new to a list
  without repetitions leaves it so, and one that is not new is dropped with the duplicates.
-/

namespace Monomorph

/-! ## Results -/

section Results

variable {ε α β : Type}

theorem exists_of_map_ok {r : Except ε α} {f : α → β} {b : β} (h : r.map f = .ok b) :
    ∃ a, r = .ok a ∧ f a = b := by
  cases r with
  | error e => cases h
  | ok a =>
    cases h
    exact ⟨a, rfl, rfl⟩

theorem exists_of_bind_ok {r : Except ε α} {f : α → Except ε β} {b : β}
    (h : (r >>= f) = .ok b) : ∃ a, r = .ok a ∧ f a = .ok b := by
  cases r with
  | error e => cases h
  | ok a => exact ⟨a, rfl, h⟩

theorem exists_map_ok_iff {r : Except ε α} {f : α → β} :
    (∃ b, r.map f = .ok b) ↔ ∃ a, r = .ok a := by
  cases r with
  | error e => simp [Except.map]
  | ok a => simp [Except.map]

theorem map_eq_error_iff {r : Except ε α} {f : α → β} {e : ε} :
    r.map f = .error e ↔ r = .error e := by
  cases r with
  | error e' => simp [Except.map]
  | ok a => simp [Except.map]

theorem exists_bind_ok_iff {r : Except ε α} {f : α → Except ε β} :
    (∃ b, (r >>= f) = .ok b) ↔ ∃ a, r = .ok a ∧ ∃ b, f a = .ok b := by
  cases r with
  | error e => simp [bind, Except.bind]
  | ok a => simp [bind, Except.bind]

theorem exists_mapM_ok_iff {f : α → Except ε β} {xs : List α} :
    (∃ ys, xs.mapM f = .ok ys) ↔ ∀ x ∈ xs, ∃ y, f x = .ok y := by
  induction xs with
  | nil => simp [pure, Except.pure]
  | cons x xs ih =>
    simp only [List.mapM_cons, exists_bind_ok_iff, List.forall_mem_cons, ← ih]
    simp [pure, Except.pure]

theorem forall₂_of_mapM_ok {f : α → Except ε β} {xs : List α} {ys : List β}
    (h : xs.mapM f = .ok ys) : List.Forall₂ (fun x y => f x = .ok y) xs ys := by
  induction xs generalizing ys with
  | nil =>
    cases h
    exact .nil
  | cons x xs ih =>
    rw [List.mapM_cons] at h
    obtain ⟨y, hy, h⟩ := exists_of_bind_ok h
    obtain ⟨zs, hzs, h⟩ := exists_of_bind_ok h
    cases h
    exact .cons hy (ih hzs)

theorem exists_left_of_forall₂ {R : α → β → Prop} {xs : List α} {ys : List β}
    (h : List.Forall₂ R xs ys) {y : β} (hy : y ∈ ys) : ∃ x ∈ xs, R x y := by
  induction h with
  | nil => cases hy
  | cons hx _ ih =>
    rcases List.mem_cons.1 hy with rfl | hy
    · exact ⟨_, List.mem_cons_self, hx⟩
    · obtain ⟨x, hm, hx⟩ := ih hy
      exact ⟨x, List.mem_cons_of_mem _ hm, hx⟩

theorem exists_right_of_forall₂ {R : α → β → Prop} {xs : List α} {ys : List β}
    (h : List.Forall₂ R xs ys) {x : α} (hx : x ∈ xs) : ∃ y ∈ ys, R x y :=
  exists_left_of_forall₂ h.flip hx

theorem exists_of_mem_mapM_ok {f : α → Except ε β} {xs : List α} {ys : List β} {y : β}
    (h : xs.mapM f = .ok ys) (hy : y ∈ ys) : ∃ x ∈ xs, f x = .ok y :=
  exists_left_of_forall₂ (forall₂_of_mapM_ok h) hy

theorem exists_mem_of_mapM_ok {f : α → Except ε β} {xs : List α} {ys : List β} {x : α}
    (h : xs.mapM f = .ok ys) (hx : x ∈ xs) : ∃ y ∈ ys, f x = .ok y :=
  exists_right_of_forall₂ (forall₂_of_mapM_ok h) hx

theorem mapM_ok_of_imp {f g : α → Except ε β} {xs : List α} {ys : List β}
    (hfg : ∀ x ∈ xs, ∀ y, f x = .ok y → g x = .ok y) (h : xs.mapM f = .ok ys) :
    xs.mapM g = .ok ys := by
  induction xs generalizing ys with
  | nil => exact h
  | cons x xs ih =>
    rw [List.forall_mem_cons] at hfg
    rw [List.mapM_cons] at h
    obtain ⟨y, hy, h⟩ := exists_of_bind_ok h
    obtain ⟨zs, hzs, h⟩ := exists_of_bind_ok h
    cases h
    rw [List.mapM_cons, hfg.1 y hy, ih hfg.2 hzs]
    rfl

theorem bind_eq_error_iff {r : Except ε α} {f : α → Except ε β} {e : ε} :
    (r >>= f) = .error e ↔ r = .error e ∨ ∃ a, r = .ok a ∧ f a = .error e := by
  cases r with
  | error e' => simp [bind, Except.bind]
  | ok a => simp [bind, Except.bind]

/-- A failure is that of the first element that fails. -/
theorem mapM_eq_error_iff {f : α → Except ε β} {xs : List α} {e : ε} :
    xs.mapM f = .error e ↔ ∃ before x after, xs = before ++ x :: after ∧
      (∀ y ∈ before, ∃ z, f y = .ok z) ∧ f x = .error e := by
  induction xs with
  | nil => simp [pure, Except.pure]
  | cons x xs ih =>
    have hstep : (x :: xs).mapM f = .error e ↔
        f x = .error e ∨ (∃ z, f x = .ok z) ∧ xs.mapM f = .error e := by
      simp [List.mapM_cons, bind_eq_error_iff, pure, Except.pure]
    rw [hstep, ih]
    constructor
    · rintro (hx | ⟨hx, before, y, after, rfl, hbefore, hy⟩)
      · exact ⟨[], x, xs, rfl, by simp, hx⟩
      · exact ⟨x :: before, y, after, rfl, List.forall_mem_cons.2 ⟨hx, hbefore⟩, hy⟩
    · rintro ⟨before, y, after, h, hbefore, hy⟩
      cases before with
      | nil =>
        cases h
        exact .inl hy
      | cons z before =>
        cases h
        rw [List.forall_mem_cons] at hbefore
        exact .inr ⟨hbefore.1, before, y, after, rfl, hbefore.2, hy⟩

/-- If the computation fails, then with an error of that kind. -/
def FailsOnly (P : ε → Prop) (r : Except ε α) : Prop :=
  ∀ e, r = .error e → P e

variable {P : ε → Prop} {r : Except ε α}

theorem failsOnly_ok (a : α) : FailsOnly P (.ok a : Except ε α) := by
  intro e h
  cases h

theorem failsOnly_error {e : ε} (h : P e) : FailsOnly P (.error e : Except ε α) := by
  intro e' he
  cases he
  exact h

theorem failsOnly_of_ok {a : α} (h : r = .ok a) : FailsOnly P r := by
  rw [h]
  exact failsOnly_ok a

theorem FailsOnly.imp {Q : ε → Prop} (h : FailsOnly P r) (hpq : ∀ e, P e → Q e) : FailsOnly Q r :=
  fun e he => hpq e (h e he)

theorem FailsOnly.map (h : FailsOnly P r) (f : α → β) : FailsOnly P (r.map f) := by
  cases r with
  | error e =>
    intro e' he
    cases he
    exact h e rfl
  | ok a => exact failsOnly_ok (f a)

theorem FailsOnly.bind (h : FailsOnly P r) {f : α → Except ε β}
    (hf : ∀ a, r = .ok a → FailsOnly P (f a)) : FailsOnly P (r >>= f) := by
  cases r with
  | error e =>
    intro e' he
    cases he
    exact h e rfl
  | ok a => exact hf a rfl

theorem failsOnly_mapM {f : α → Except ε β} {xs : List α} (h : ∀ x ∈ xs, FailsOnly P (f x)) :
    FailsOnly P (xs.mapM f) := by
  induction xs with
  | nil => exact failsOnly_ok []
  | cons x xs ih =>
    rw [List.forall_mem_cons] at h
    rw [List.mapM_cons]
    exact h.1.bind fun y _ => (ih h.2).bind fun ys _ => failsOnly_ok (y :: ys)

end Results

/-! ## Lists -/

variable {α : Type}

theorem getElem?_mono {xs ys : List α} (h : xs <+: ys) {k : Nat} {x : α}
    (hx : xs[k]? = some x) : ys[k]? = some x := by
  obtain ⟨zs, rfl⟩ := h
  rw [List.getElem?_append_left (List.getElem?_eq_some_iff.1 hx).1, hx]

theorem getElem?_concat_length (xs : List α) (x : α) : (xs ++ [x])[xs.length]? = some x := by
  rw [List.getElem?_append_right (Nat.le_refl _), Nat.sub_self]
  rfl

/-- An element of a longer list is an old one or the new one. -/
theorem getElem?_concat {xs : List α} {x y : α} {k : Nat} (h : (xs ++ [x])[k]? = some y) :
    xs[k]? = some y ∨ k = xs.length ∧ x = y := by
  by_cases hk : k < xs.length
  · rw [List.getElem?_append_left hk] at h
    exact .inl h
  · rw [List.getElem?_append_right (by omega), List.getElem?_singleton] at h
    split at h
    · cases h
      exact .inr ⟨by omega, rfl⟩
    · cases h

theorem nodup_concat {xs : List α} {x : α} (hn : xs.Nodup) (h : x ∉ xs) : (xs ++ [x]).Nodup := by
  rw [List.nodup_append]
  refine ⟨hn, List.nodup_singleton x, ?_⟩
  intro y hy z hz
  rw [List.mem_singleton] at hz
  rintro rfl
  rw [hz] at hy
  exact h hy

/-- Without repetitions, positions are equal iff their elements are. -/
theorem position_inj {xs : List α} (hn : xs.Nodup) {i j : Nat} {x y : α} (hi : xs[i]? = some x)
    (hj : xs[j]? = some y) : i = j ↔ x = y := by
  constructor
  · rintro rfl
    exact Option.some.inj (hi.symm.trans hj)
  · rintro rfl
    have hlt : i < xs.length := (List.getElem?_eq_some_iff.1 hi).1
    exact (List.getElem?_inj hlt hn).1 (hi.trans hj.symm)

/-- Computing from the positions of a list is computing from its elements. -/
theorem mapM_range {ε β : Type} {xs : List α} {f : Nat → Except ε β} {g : α → Except ε β}
    (h : ∀ (k : Nat) (x : α), xs[k]? = some x → f k = g x) :
    (List.range xs.length).mapM f = xs.mapM g := by
  induction xs using List.reverseRecOn with
  | nil => rfl
  | append_singleton xs x ih =>
    rw [List.length_append, List.length_singleton, List.range_succ, List.mapM_append,
      List.mapM_append, ih fun k y hy => h k y (getElem?_mono (List.prefix_append _ _) hy),
      List.mapM_cons, List.mapM_cons, h _ x (getElem?_concat_length xs x)]
    rfl

theorem eraseDupsBy_loop_cons (same : α → α → Bool) (x : α) (xs ys : List α) :
    List.eraseDupsBy.loop same (x :: xs) ys =
      List.eraseDupsBy.loop same xs (if ys.any (same x) then ys else x :: ys) := by
  rw [List.eraseDupsBy.loop]
  split
  · rename_i h
    rw [if_pos h]
  · rename_i h
    rw [h, if_neg Bool.false_ne_true]

theorem eraseDupsBy_loop_concat (same : α → α → Bool) (xs ys : List α) (x : α) :
    List.eraseDupsBy.loop same (xs ++ [x]) ys =
      if (List.eraseDupsBy.loop same xs ys).any (same x) then List.eraseDupsBy.loop same xs ys
      else List.eraseDupsBy.loop same xs ys ++ [x] := by
  induction xs generalizing ys with
  | nil =>
    rw [List.nil_append, eraseDupsBy_loop_cons]
    simp only [List.eraseDupsBy.loop, List.any_reverse]
    split
    · rfl
    · exact List.reverse_cons
  | cons a xs ih =>
    rw [List.cons_append, eraseDupsBy_loop_cons, eraseDupsBy_loop_cons, ih]

/-- A last element counts only if it is the first of its kind. -/
theorem eraseDupsBy_concat (same : α → α → Bool) (xs : List α) (x : α) :
    (xs ++ [x]).eraseDupsBy same =
      if (xs.eraseDupsBy same).any (same x) then xs.eraseDupsBy same
      else xs.eraseDupsBy same ++ [x] :=
  eraseDupsBy_loop_concat same xs [] x

end Monomorph
