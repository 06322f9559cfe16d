import Monomorph.Proofs.Json.Scan

/-!
# Monomorph.Proofs.Json.Layout

Taking a laid out text apart, token by token.

* `exists_of_lays_cons`: behind blanks stands the first token, and the others are laid out after it.
* `exists_of_lays_append`: the tokens of one part come before those of the next.
* `Value.exists_start`: a value starts with a character that neither ends nor separates anything.
* `stops_of_lays`: numbers end where a token starts that cannot go on with them.
-/

namespace Monomorph
namespace Json

/-! ## Blanks -/

theorem isBlank_of_mem {blanks : List Char} (h : Blanks blanks) {c : Char} (hc : c ∈ blanks) :
    isBlank c = true := by
  rcases h c hc with rfl | rfl | rfl | rfl <;> rfl

theorem skipBlanks_cons {c : Char} (hc : isBlank c = false) (cs : List Char) :
    skipBlanks (c :: cs) = c :: cs :=
  dropWhile_of_stops (stops_cons hc cs)

theorem skipBlanks_append {blanks : List Char} (h : Blanks blanks) (cs : List Char) :
    skipBlanks (blanks ++ cs) = skipBlanks cs :=
  List.dropWhile_append_of_pos fun _ hc => isBlank_of_mem h hc

theorem skipBlanks_blanks {blanks : List Char} (h : Blanks blanks) : skipBlanks blanks = [] := by
  have happend := skipBlanks_append h []
  rwa [List.append_nil] at happend

theorem stops_blanks {blanks cs : List Char} (h : Blanks blanks)
    (hcs : Stops continuesNumber cs) : Stops continuesNumber (blanks ++ cs) := by
  cases blanks with
  | nil => exact hcs
  | cons c blanks =>
    refine stops_cons ?_ _
    rcases h c List.mem_cons_self with rfl | rfl | rfl | rfl <;> rfl

/-! ## Tokens -/

section Tokens

variable {t : Token} {ts us : List Token} {c : Char} {cs : List Char}

theorem lays_touching (h : Lays ts cs) : Lays (t :: ts) (t ++ cs) :=
  .cons (List.forall_mem_nil _) h

theorem exists_of_lays_append (h : Lays (ts ++ us) cs) :
    ∃ before after, cs = before ++ after ∧ Lays ts before ∧ Lays us after := by
  induction ts generalizing cs with
  | nil => exact ⟨[], cs, rfl, .nil, h⟩
  | cons t ts ih =>
    cases h with
    | cons hb h =>
      obtain ⟨before, after, rfl, hts, hus⟩ := ih h
      exact ⟨_, after, by simp, .cons hb hts, hus⟩

/-- Behind the blanks stands the first token. -/
theorem exists_of_lays_cons (h : Lays ((c :: t) :: ts) cs) (hc : isBlank c = false) :
    ∃ after, Lays ts after ∧ after.length < cs.length ∧
      ∀ rest, skipBlanks (cs ++ rest) = c :: (t ++ (after ++ rest)) := by
  cases h with
  | cons hb h =>
    rename_i blanks after
    refine ⟨after, h, ?_, ?_⟩
    · simp only [List.length_append, List.length_cons]
      omega
    · intro rest
      rw [List.append_assoc, skipBlanks_append hb, List.append_assoc]
      exact skipBlanks_cons hc _

/-- Without blanks in front the same tokens are laid out. -/
theorem exists_lays_skipBlanks (h : Lays ((c :: t) :: ts) cs) (hc : isBlank c = false) :
    ∃ cs', Lays ((c :: t) :: ts) (c :: cs') ∧ cs'.length < cs.length ∧
      ∀ rest, skipBlanks (cs ++ rest) = c :: (cs' ++ rest) := by
  cases h with
  | cons hb h =>
    rename_i blanks after
    refine ⟨t ++ after, lays_touching h, ?_, ?_⟩
    · simp only [List.length_append, List.length_cons]
      omega
    · intro rest
      rw [List.append_assoc, skipBlanks_append hb]
      exact skipBlanks_cons hc _

/-- Text that goes on with a token goes on with no number. -/
theorem stops_of_lays (h : Lays ((c :: t) :: ts) cs) (hc : continuesNumber c = false)
    (rest : List Char) : Stops continuesNumber (cs ++ rest) := by
  cases h with
  | cons hb h =>
    rw [List.append_assoc]
    exact stops_blanks hb (stops_cons hc _)

end Tokens

/-! ## Values -/

/-- The characters that values start with. -/
def startsValue (c : Char) : Bool :=
  c ∈ ['n', 't', 'f', '"', '[', '{', '-'] || c.isDigit

theorem startsValue_ne {c d : Char} (hc : startsValue c = true) (hd : startsValue d = false) :
    c ≠ d := by
  rintro rfl
  rw [hc] at hd
  cases hd

theorem isBlank_of_startsValue {c : Char} (hc : startsValue c = true) : isBlank c = false := by
  simp only [isBlank, Bool.or_eq_false_iff, beq_eq_false_iff_ne]
  exact ⟨⟨⟨startsValue_ne hc rfl, startsValue_ne hc rfl⟩, startsValue_ne hc rfl⟩,
    startsValue_ne hc rfl⟩

theorem NumberLiteral.exists_start (x : NumberLiteral) :
    ∃ c cs, x.text = c :: cs ∧ (c = '-' ∨ c.isDigit = true) := by
  rw [text]
  cases x.negative with
  | true => exact ⟨'-', _, rfl, .inl rfl⟩
  | false =>
    cases h : Nat.toDigits 10 x.whole with
    | nil => exact absurd h Nat.toDigits_ne_nil
    | cons c cs =>
      refine ⟨c, _, rfl, .inr ?_⟩
      exact Nat.isDigit_of_mem_toDigits (n := x.whole) (by omega : 0 < 10) (by omega)
        (by rw [h]; exact List.mem_cons_self)

theorem ne_of_startsNumber {c d : Char} (h : c = '-' ∨ c.isDigit = true) (h₁ : d ≠ '-')
    (h₂ : d.isDigit = false) : c ≠ d := by
  rintro rfl
  rcases h with rfl | h
  · exact h₁ rfl
  · rw [h] at h₂
    cases h₂

theorem startsValue_of_number {c : Char} (h : c = '-' ∨ c.isDigit = true) :
    startsValue c = true := by
  rcases h with rfl | h
  · rfl
  · rw [startsValue, h, Bool.or_true]

namespace Value

/-- Induction on values, with the hypothesis for every item and for the value of every member. -/
@[induction_eliminator]
theorem induct {P : Value → Prop} (null : P .null) (bool : ∀ b, P (.bool b))
    (number : ∀ x, P (.number x)) (string : ∀ l, P (.string l))
    (array : ∀ items : List Value, (∀ v ∈ items, P v) → P (.array items))
    (object : ∀ members : List (Literal × Value), (∀ m ∈ members, P m.2) → P (.object members))
    (v : Value) : P v :=
  Value.rec (motive_2 := fun items => ∀ v ∈ items, P v)
    (motive_3 := fun members => ∀ m ∈ members, P m.2) (motive_4 := fun m => P m.2)
    null bool number string array object (List.forall_mem_nil _)
    (fun _ _ hv hs => List.forall_mem_cons.2 ⟨hv, hs⟩) (List.forall_mem_nil _)
    (fun _ _ hm hs => List.forall_mem_cons.2 ⟨hm, hs⟩) (fun _ _ h => h) v

theorem exists_start (v : Value) :
    ∃ c t ts, v.tokens = (c :: t) :: ts ∧ startsValue c = true ∧ (c = 'n' → v = .null) := by
  cases v with
  | null => exact ⟨_, _, _, rfl, rfl, fun _ => rfl⟩
  | bool b =>
    cases b with
    | true => exact ⟨_, _, _, rfl, rfl, nofun⟩
    | false => exact ⟨_, _, _, rfl, rfl, nofun⟩
  | number x =>
    obtain ⟨c, cs, hx, hc⟩ := x.exists_start
    exact ⟨c, cs, [], by rw [tokens, hx], startsValue_of_number hc,
      fun h => absurd h (ne_of_startsNumber hc (by decide) rfl)⟩
  | string l => exact ⟨_, _, _, rfl, rfl, nofun⟩
  | array items => exact ⟨_, _, _, rfl, rfl, nofun⟩
  | object members => exact ⟨_, _, _, rfl, rfl, nofun⟩

end Value

/-- Between items nothing goes on with a number. -/
theorem stops_items {items : List Value} {cs : List Char}
    (h : Lays (Value.itemTokens false items) cs) (rest : List Char) :
    Stops continuesNumber (cs ++ rest) := by
  cases items with
  | nil => exact stops_of_lays h rfl rest
  | cons v items => exact stops_of_lays h rfl rest

theorem stops_members {members : List (Literal × Value)} {cs : List Char}
    (h : Lays (Value.memberTokens false members) cs) (rest : List Char) :
    Stops continuesNumber (cs ++ rest) := by
  cases members with
  | nil => exact stops_of_lays h rfl rest
  | cons m members => exact stops_of_lays h rfl rest

end Json
end Monomorph
