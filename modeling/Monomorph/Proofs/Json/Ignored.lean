import Monomorph.Proofs.Json.Layout

/-!
# Monomorph.Proofs.Json.Ignored

Every value is passed over, whatever its numbers, its strings and its depth.

* `Value.passed`: passing over a value leads behind it, with the same brackets open.
* `skipValue_eq`: so a value that nobody asks for is skipped.
-/

namespace Monomorph
namespace Json

variable {brackets : List Bracket} {bracket : Bracket} {cs rest : List Char}

/-! ## Scalars -/

theorem skipScalar_number (x : NumberLiteral) (hr : Stops continuesNumber rest) :
    skipScalar (x.text ++ rest) = .ok rest := by
  obtain ⟨c, cs, hx, hc⟩ := x.exists_start
  have hscan := scanNumber_text x hr
  rw [hx, List.cons_append] at hscan ⊢
  have hne {d : Char} := ne_of_startsNumber (d := d) hc
  have hnumber : (c = '-' || c.isDigit) = true := by
    rw [Bool.or_eq_true, decide_eq_true_eq]
    exact hc
  rw [skipScalar, if_neg (hne (by decide) rfl), if_neg (hne (by decide) rfl),
    if_neg (hne (by decide) rfl), if_neg (hne (by decide) rfl), if_pos hnumber, hscan]
  rfl

theorem skipScalar_string (l : Literal) : skipScalar (l.text ++ rest) = .ok rest := by
  have hskip := skipString_text l rest
  rw [Literal.text, List.cons_append, List.append_assoc]
  exact hskip

/-! ## Turns -/

theorem finish_of_step {p q : Passage} (h : p.step = some (.ok q)) : p.finish = q.finish := by
  rw [Passage.finish]
  split
  · rename_i h'
    rw [h] at h'
    cases h'
  · rename_i h'
    rw [h] at h'
    cases h'
  · rename_i h'
    rw [h] at h'
    cases h'
    rfl

/-- A passage inside a bracket, before its first item or behind one. -/
def Passage.inside (bracket : Bracket) (first : Bool) (brackets : List Bracket)
    (cs : List Char) : Passage :=
  if first then ⟨.opened bracket, brackets, cs⟩ else ⟨.after, bracket :: brackets, cs⟩

theorem finish_inside_closing (first : Bool) (h : skipBlanks cs = bracket.closing :: rest) :
    (Passage.inside bracket first brackets cs).finish =
      Passage.finish ⟨.after, brackets, rest⟩ := by
  cases first with
  | true =>
    refine finish_of_step (congrArg some ?_)
    show stepOpened bracket brackets cs = _
    simp only [stepOpened, h, ↓reduceIte]
  | false =>
    refine finish_of_step (congrArg some ?_)
    show stepAfter bracket brackets cs = _
    have hne : bracket.closing ≠ ',' := by
      cases bracket <;> decide
    simp only [stepAfter, h, hne, ↓reduceIte]

/-- The next item, after the comma that separates it from the one before. -/
theorem exists_finish_inside_item (bracket : Bracket) (first : Bool) {c : Char} {t : Token}
    {ts : List Token}
    (h : Lays (Value.separator first ++ (c :: t) :: ts) cs) (hb : isBlank c = false)
    (hc : c ≠ bracket.closing) :
    ∃ cs', Lays ((c :: t) :: ts) cs' ∧
      ∀ p, beginItem bracket brackets (cs' ++ rest) = .ok p →
        (Passage.inside bracket first brackets (cs ++ rest)).finish = p.finish := by
  cases first with
  | true =>
    obtain ⟨cs', h, _, hskip⟩ := exists_lays_skipBlanks h hb
    refine ⟨_, h, fun p hp => finish_of_step (congrArg some ?_)⟩
    show stepOpened bracket brackets (cs ++ rest) = _
    rw [← hp]
    simp only [stepOpened, hskip, hc, ↓reduceIte, List.cons_append]
  | false =>
    obtain ⟨after, hafter, _, hskip⟩ := exists_of_lays_cons h rfl
    refine ⟨after, hafter, fun p hp => finish_of_step (congrArg some ?_)⟩
    show stepAfter bracket brackets (cs ++ rest) = _
    rw [← hp]
    simp only [stepAfter, hskip, ↓reduceIte]
    rfl

theorem exists_skipName {l : Literal} {ts : List Token} (h : Lays (l.text :: [':'] :: ts) cs) :
    ∃ after, Lays ts after ∧ ∀ rest, skipName (cs ++ rest) = .ok (after ++ rest) := by
  obtain ⟨behindName, h, _, hname⟩ := exists_of_lays_cons h rfl
  obtain ⟨after, h, _, hcolon⟩ := exists_of_lays_cons h rfl
  refine ⟨after, h, fun rest => ?_⟩
  have hskip := skipString_text l (behindName ++ rest)
  rw [skipName, hname, List.append_assoc]
  simp only [List.singleton_append, hskip, hcolon]
  rfl

theorem stepValue_scalar {c : Char} {after : List Char} (h : skipBlanks cs = c :: after)
    (hsquare : c ≠ '[') (hbrace : c ≠ '{') (hs : skipScalar (c :: after) = .ok rest) :
    stepValue brackets cs = .ok ⟨.after, brackets, rest⟩ := by
  rw [stepValue, h]
  split
  · rename_i he
    exact absurd (List.cons.inj he).1 hsquare
  · rename_i he
    exact absurd (List.cons.inj he).1 hbrace
  · rw [hs]
    rfl

theorem finish_scalar {c : Char} {t : Token} (h : Lays [c :: t] cs) (hb : isBlank c = false)
    (hsquare : c ≠ '[') (hbrace : c ≠ '{') (hs : skipScalar (c :: t ++ rest) = .ok rest) :
    Passage.finish ⟨.value, brackets, cs ++ rest⟩ = Passage.finish ⟨.after, brackets, rest⟩ := by
  obtain ⟨after, h, _, hskip⟩ := exists_of_lays_cons h hb
  cases h
  exact finish_of_step (congrArg some (stepValue_scalar (hskip rest) hsquare hbrace hs))

/-! ## Values -/

/-- Passing over the value leads behind it, with the same brackets open. -/
def Value.Passed (v : Value) : Prop :=
  ∀ (brackets : List Bracket) (cs rest : List Char), Lays v.tokens cs →
    Stops continuesNumber rest →
      Passage.finish ⟨.value, brackets, cs ++ rest⟩ = Passage.finish ⟨.after, brackets, rest⟩

theorem finish_items {items : List Value} (hp : ∀ v ∈ items, v.Passed) (first : Bool)
    (h : Lays (Value.itemTokens first items) cs) :
    (Passage.inside .square first brackets (cs ++ rest)).finish =
      Passage.finish ⟨.after, brackets, rest⟩ := by
  induction items generalizing first cs with
  | nil =>
    obtain ⟨after, h, _, hskip⟩ := exists_of_lays_cons h rfl
    cases h
    exact finish_inside_closing first (hskip _)
  | cons v items ih =>
    rw [List.forall_mem_cons] at hp
    obtain ⟨c, t, ts, hts, hc, _⟩ := v.exists_start
    rw [Value.itemTokens, hts] at h
    obtain ⟨cs', h, hnext⟩ := exists_finish_inside_item .square first h
      (isBlank_of_startsValue hc) (startsValue_ne hc rfl)
    have h : Lays (v.tokens ++ Value.itemTokens false items) cs' := by
      rw [hts]
      exact h
    obtain ⟨before, after, rfl, hv, hitems⟩ := exists_of_lays_append h
    rw [hnext _ rfl, List.append_assoc, hp.1 _ _ _ hv (stops_items hitems _)]
    exact ih hp.2 false hitems

theorem finish_members {members : List (Literal × Value)} (hp : ∀ m ∈ members, m.2.Passed)
    (first : Bool) (h : Lays (Value.memberTokens first members) cs) :
    (Passage.inside .brace first brackets (cs ++ rest)).finish =
      Passage.finish ⟨.after, brackets, rest⟩ := by
  induction members generalizing first cs with
  | nil =>
    obtain ⟨after, h, _, hskip⟩ := exists_of_lays_cons h rfl
    cases h
    exact finish_inside_closing first (hskip _)
  | cons m members ih =>
    rw [List.forall_mem_cons] at hp
    obtain ⟨l, v⟩ := m
    obtain ⟨cs', h, hnext⟩ := exists_finish_inside_item .brace first h rfl (by decide)
    obtain ⟨behindName, h, hname⟩ := exists_skipName h
    obtain ⟨before, after, rfl, hv, hmembers⟩ := exists_of_lays_append h
    have hbegin : beginItem .brace brackets (cs' ++ rest) =
        .ok ⟨.value, .brace :: brackets, before ++ after ++ rest⟩ := by
      rw [beginItem, hname]
      rfl
    rw [hnext _ hbegin, List.append_assoc, hp.1 _ _ _ hv (stops_members hmembers _)]
    exact ih hp.2 false hmembers

namespace Value

/-- Passing over a value leads behind it. -/
theorem passed (v : Value) : v.Passed := by
  induction v with
  | null =>
    intro brackets cs rest h _
    exact finish_scalar h rfl (by decide) (by decide) rfl
  | bool b =>
    intro brackets cs rest h _
    cases b with
    | true => exact finish_scalar h rfl (by decide) (by decide) rfl
    | false => exact finish_scalar h rfl (by decide) (by decide) rfl
  | number x =>
    intro brackets cs rest h hr
    obtain ⟨c, t, hx, hc⟩ := x.exists_start
    have hs := skipScalar_number x hr
    rw [tokens, hx] at h
    rw [hx] at hs
    exact finish_scalar h (isBlank_of_startsValue (startsValue_of_number hc))
      (ne_of_startsNumber hc (by decide) rfl) (ne_of_startsNumber hc (by decide) rfl) hs
  | string l =>
    intro brackets cs rest h _
    exact finish_scalar h rfl (by decide) (by decide) (skipScalar_string l)
  | array items ih =>
    intro brackets cs rest h _
    obtain ⟨after, h, _, hskip⟩ := exists_of_lays_cons h rfl
    refine Eq.trans (finish_of_step ?_) (finish_items ih true h)
    show some (stepValue brackets (cs ++ rest)) = _
    rw [stepValue, hskip]
    rfl
  | object members ih =>
    intro brackets cs rest h _
    obtain ⟨after, h, _, hskip⟩ := exists_of_lays_cons h rfl
    refine Eq.trans (finish_of_step ?_) (finish_members ih true h)
    show some (stepValue brackets (cs ++ rest)) = _
    rw [stepValue, hskip]
    rfl

end Value

theorem skipValue_eq {v : Value} (h : Lays v.tokens cs) (hr : Stops continuesNumber rest) :
    skipValue (cs ++ rest) = .ok rest := by
  rw [skipValue, v.passed [] cs rest h hr, Passage.finish]
  rfl

end Json
end Monomorph
