import Monomorph.Proofs.Signature.Meaning

/-!
# Monomorph.Proofs.Signature.Outline

The text of a signature as an outline: fixed pieces, with places for the parameters.

`Sig.outline` mentions no binding, and its places are the parameters that are met, in their order.

* `Rewrites.render_eq`: whatever the parameters are exchanged for, the text is the outline with the
  texts of these in the places; so `render_eq_fill` and `render_of_substitute`.
* `hasText_of_substitute_iff`: a signature can be written after a substitution iff it could be
  before, and all arguments put in can be.
-/

namespace Monomorph

/-- A piece of a text: one that parameters do not change, or the reason why it cannot be written;
or the place of a parameter. -/
inductive Piece where
  | fixed (text : Except Error String)
  | param (s : Sig)

namespace Piece

/-- The parameter whose place it is. -/
def param? : Piece → Option Sig
  | fixed _ => none
  | param s => some s

def write (f : Sig → Except Error String) : Piece → Except Error String
  | fixed text => text
  | param s => f s

/-- The text of the pieces, with what the function writes in the places of the parameters. -/
def fill (f : Sig → Except Error String) (ps : List Piece) : Except Error String :=
  (ps.mapM (write f)).map String.join

variable {f : Sig → Except Error String}

theorem fill_append (ps qs : List Piece) :
    fill f (ps ++ qs) = fill f ps >>= fun x => (fill f qs).map (x ++ ·) := by
  unfold fill
  rw [List.mapM_append]
  cases ps.mapM (write f) with
  | error e => rfl
  | ok xs =>
    cases qs.mapM (write f) with
    | error e => rfl
    | ok ys => exact congrArg Except.ok String.join_append

theorem fill_singleton (p : Piece) : fill f [p] = p.write f := by
  unfold fill
  rw [List.mapM_cons, List.mapM_nil]
  cases p.write f with
  | error e => rfl
  | ok x => simp [bind, Except.bind, pure, Except.pure, Except.map]

theorem fill_cons (p : Piece) (ps : List Piece) :
    fill f (p :: ps) = p.write f >>= fun x => (fill f ps).map (x ++ ·) := by
  rw [← fill_singleton, ← fill_append]
  rfl

/-- A fixed piece at the end. -/
theorem fill_concat (ps : List Piece) (x : String) :
    fill f (ps ++ [fixed (.ok x)]) = (fill f ps).map (· ++ x) := by
  rw [fill_append, fill_singleton]
  cases fill f ps <;> rfl

/-- Fixed pieces between others. -/
theorem fill_intercalate (x : String) (pss : List (List Piece)) :
    fill f ([fixed (.ok x)].intercalate pss) = (pss.mapM (fill f)).map (x.intercalate ·) := by
  induction pss with
  | nil => rfl
  | cons ps pss ih =>
    cases pss with
    | nil =>
      rw [List.intercalate_singleton, List.mapM_cons, List.mapM_nil]
      cases fill f ps with
      | error e => rfl
      | ok y => exact congrArg Except.ok String.intercalate_singleton.symm
    | cons qs pss =>
      rw [List.intercalate_cons_cons, fill_append, fill_concat, ih]
      simp only [List.mapM_cons]
      rcases fill f ps with e | y
      · rfl
      rcases fill f qs with e | z
      · rfl
      rcases pss.mapM (fill f) with e | zs
      · rfl
      · exact congrArg Except.ok String.intercalate_cons_cons.symm

theorem exists_fill_iff {ps : List Piece} :
    (∃ x, fill f ps = .ok x) ↔ ∀ p ∈ ps, ∃ x, p.write f = .ok x := by
  unfold fill
  rw [exists_map_ok_iff, exists_mapM_ok_iff]

theorem filterMap_intercalate (x : String) (pss : List (List Piece)) :
    ([fixed (.ok x)].intercalate pss).filterMap param? =
      pss.flatMap fun ps => ps.filterMap param? := by
  induction pss with
  | nil => rfl
  | cons ps pss ih =>
    cases pss with
    | nil => simp
    | cons qs pss =>
      rw [List.intercalate_cons_cons, List.filterMap_append, List.filterMap_append, ih]
      simp [param?]

end Piece

namespace Sig

mutual

/-- The text of the signature with places for its parameters. -/
def outline (owners : Bool) : Sig → List Piece
  | .primitive p => [.fixed (.ok p.name)]
  | .classType t => [.fixed (.ok t.shownName)]
  | .valueType t => [.fixed (.ok t.shownName)]
  | .ptr next => next.outline owners ++ [.fixed (.ok "*")]
  | .byRef next => next.outline owners ++ [.fixed (.ok "&")]
  | .pinned next => next.outline owners
  | .szArray next => next.outline owners ++ [.fixed (.ok "[]")]
  | .array element rank sizes lowerBounds =>
    element.outline owners ++ [.fixed (arraySuffix rank sizes lowerBounds)]
  | .modReqd modifier next =>
    next.outline owners ++ [.fixed (.ok (" modreq(" ++ modifier.fullName ++ ")"))]
  | .modOpt modifier next =>
    next.outline owners ++ [.fixed (.ok (" modopt(" ++ modifier.fullName ++ ")"))]
  | .genericInst generic args =>
    .fixed (generic.render owners) :: .fixed (.ok "<") ::
      ([.fixed (.ok ",")].intercalate (outlineEach owners args) ++ [.fixed (.ok ">")])
  | .typeParam number owner => [.param (.typeParam number owner)]
  | .methodParam number owner => [.param (.methodParam number owner)]
  | .unsupported e => [.fixed (.error (.unsupportedElement e))]

def outlineEach (owners : Bool) : List Sig → List (List Piece)
  | [] => []
  | s :: rest => s.outline owners :: outlineEach owners rest

end

variable {owners : Bool} {b : Binding} {s t : Sig}

/-- The places are the parameters that are met, in their order. -/
theorem filterMap_outline (owners : Bool) (s : Sig) :
    (s.outline owners).filterMap Piece.param? = s.params := by
  induction s using Sig.rec (motive_2 := fun ss =>
      ((outlineEach owners ss).flatMap fun ps => ps.filterMap Piece.param?) =
        (leavesOfList ss).filter isParam) with
  | ptr _ ih | byRef _ ih | szArray _ ih | array _ _ _ _ ih | modReqd _ _ ih | modOpt _ _ ih =>
    rw [outline, List.filterMap_append, ih]
    exact List.append_nil _
  | pinned _ ih => exact ih
  | genericInst generic args _ ih =>
    rw [outline, List.filterMap_cons_none rfl, List.filterMap_cons_none rfl, List.filterMap_append,
      Piece.filterMap_intercalate, ih]
    exact List.append_nil _
  | nil => rfl
  | cons s rest ihs ih =>
    rw [outlineEach, List.flatMap_cons, ihs, ih, leavesOfList, List.filter_append, params]
  | _ => rfl

/-- Whatever the parameters are exchanged for, the text is the outline with these in the places. -/
theorem Rewrites.render_eq {f : Sig → Sig} (h : s.Rewrites (fun x y => y = f x) t) :
    t.render owners = Piece.fill (fun x => (f x).render owners) (s.outline owners) := by
  induction h using Rewrites.rec (motive_2 := fun ss ts _ =>
      renderEach owners ts =
        (outlineEach owners ss).mapM (Piece.fill fun x => (f x).render owners)) with
  | @param s t hp hr =>
    cases s with
    | typeParam number owner | methodParam number owner =>
      rw [hr, outline, Piece.fill_singleton]
      rfl
    | _ => cases hp
  | ptr _ ih | byRef _ ih | szArray _ ih => rw [render, outline, Piece.fill_concat, ih]
  | modReqd _ _ ih | modOpt _ _ ih =>
    rw [render, outline, Piece.fill_concat, ih]
    simp only [String.append_assoc]
  | pinned _ ih => rw [render, outline, ih]
  | @array s t rank sizes lowerBounds _ ih =>
    rw [render, outline, Piece.fill_append, Piece.fill_singleton, ← ih]
    cases t.render owners <;> rfl
  | @genericInst args args' generic _ ih =>
    rw [render, outline, Piece.fill_cons, Piece.fill_cons, Piece.fill_concat,
      Piece.fill_intercalate, ← ih, Piece.write, Piece.write]
    rcases generic.render owners with e | text
    · rfl
    rcases renderEach owners args' with e | texts
    · rfl
    · simp [bind, Except.bind, Except.map, String.append_assoc]
  | nil => rfl
  | @cons s t ss ts _ _ ihs ih =>
    rw [renderEach, outlineEach, List.mapM_cons, ← ihs, ← ih]
    rcases t.render owners with e | text
    · rfl
    rcases renderEach owners ts with e | texts <;> rfl
  | _ =>
    rw [outline, Piece.fill_singleton]
    rfl

/-- The signature itself has its own parameters in the places. -/
theorem render_eq_fill (owners : Bool) (s : Sig) :
    s.render owners = Piece.fill (render owners) (s.outline owners) :=
  (rewrites_refl (R := fun x y => y = id x) s fun _ _ _ => rfl).render_eq

/-- After a substitution the arguments stand in the places. -/
theorem render_of_substitute (h : s.substitute b = .ok t) :
    t.render owners = Piece.fill (fun x => (b.put x).render owners) (s.outline owners) :=
  (rewrites_put_of_substitute h).render_eq

theorem hasText_of_isParam (h : s.isParam = true) : s.HasText owners := by
  cases s with
  | typeParam number owner => exact hasText_typeParam
  | methodParam number owner => exact hasText_methodParam
  | _ => cases h

theorem mem_params_iff {x : Sig} : x ∈ s.params ↔ .param x ∈ s.outline owners := by
  rw [← filterMap_outline owners, List.mem_filterMap]
  constructor
  · rintro ⟨p, hp, hx⟩
    cases p with
    | fixed text => cases hx
    | param y =>
      cases hx
      exact hp
  · intro h
    exact ⟨_, h, rfl⟩

/-- A signature can be written after a substitution iff it can be before, and every argument that
is put in can be. -/
theorem hasText_of_substitute_iff (h : s.substitute b = .ok t) :
    t.HasText owners ↔ s.HasText owners ∧ ∀ x ∈ s.params, b.Covers x → (b.put x).HasText owners := by
  have hs : s.HasText owners ↔
      ∀ p ∈ s.outline owners, ∃ x, p.write (render owners) = .ok x := by
    rw [HasText, render_eq_fill, Piece.exists_fill_iff]
  have ht : t.HasText owners ↔
      ∀ p ∈ s.outline owners, ∃ x, p.write (fun x => (b.put x).render owners) = .ok x := by
    rw [HasText, render_of_substitute h, Piece.exists_fill_iff]
  rw [hs, ht]
  constructor
  · intro hall
    refine ⟨?_, ?_⟩
    · intro p hp
      cases p with
      | fixed text => exact hall _ hp
      | param x =>
        have hx : x ∈ s.params := mem_params_iff.2 hp
        exact hasText_of_isParam (List.mem_filter.1 hx).2
    · intro x hx _
      exact hall _ (mem_params_iff.1 hx)
  · rintro ⟨hall, hargs⟩ p hp
    cases p with
    | fixed text => exact hall _ hp
    | param x =>
      have hx : x ∈ s.params := mem_params_iff.2 hp
      by_cases hc : b.Covers x
      · exact hargs x hx hc
      · show (b.put x).HasText owners
        rw [Binding.put_of_not_covers hc]
        exact hasText_of_isParam (List.mem_filter.1 hx).2

/-- A substitution does not make a signature one that can be written. -/
theorem hasText_of_substitute (h : s.substitute b = .ok t) (ht : t.HasText owners) :
    s.HasText owners :=
  ((hasText_of_substitute_iff h).1 ht).1

end Sig
end Monomorph
