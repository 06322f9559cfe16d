import Monomorph.Json.Ignored
import Monomorph.Proofs.Json.Syntax
import Monomorph.Proofs.Text.Numeral

/-!
# Monomorph.Proofs.Json.Scan

Scanners find the tokens that are written.

* `scanString_text`: a literal is read as the characters that it denotes.
* `skipString_text`: it is passed over whatever it denotes, and if it denotes nothing at all.
* `scanNumber_text`: a number is read to its end, as long as nothing follows that could go on with
  it, and `integer?_ofInt`: the literal of an integer has that integer for its value.
-/

namespace Monomorph
namespace Json

/-! ## Strings -/

section Strings

variable {rest : List Char}

theorem hexValue?_char (d : HexDigit) : hexValue? d.char = some d.value := by
  obtain ⟨v, u⟩ := d
  revert v u
  decide

theorem scanUnit_text (u : CodeUnit) : scanUnit (u.text ++ rest) = .ok (u.value, rest) := by
  have hunit : unit? u.first.char u.second.char u.third.char u.fourth.char = some u.value := by
    simp only [unit?, hexValue?_char]
    rfl
  simp only [CodeUnit.text, List.cons_append, List.nil_append, scanUnit, hunit]

theorem scanEscape_short (e : ShortEscape) :
    scanEscape (e.letter :: rest) = .ok (e.char, rest) := by
  cases e <;> rfl

theorem toNat_lt_or_gt (c : Char) : c.toNat < 0xD800 ∨ 0xDFFF < c.toNat ∧ c.toNat < 0x110000 :=
  c.valid

theorem scanEscape_unit {u : CodeUnit} {c : Char} (h : u.value = c.toNat) :
    scanEscape ('u' :: (u.text ++ rest)) = .ok (c, rest) := by
  have hc := toNat_lt_or_gt c
  have hlow : isLowSurrogate u.value = false := by
    simp only [isLowSurrogate, h, Bool.and_eq_false_iff, decide_eq_false_iff_not]
    omega
  have hhigh : isHighSurrogate u.value = false := by
    simp only [isHighSurrogate, h, Bool.and_eq_false_iff, decide_eq_false_iff_not]
    omega
  simp only [scanEscape, scanGroup, scanUnit_text, hlow, hhigh]
  rw [h, Char.ofNat_toNat]
  rfl

theorem scanEscape_pair {high low : CodeUnit} {c : Char} (hc : 0x10000 ≤ c.toNat)
    (hh : high.value = 0xD800 + (c.toNat - 0x10000) / 0x400)
    (hl : low.value = 0xDC00 + (c.toNat - 0x10000) % 0x400) :
    scanEscape ('u' :: (high.text ++ '\\' :: 'u' :: (low.text ++ rest))) = .ok (c, rest) := by
  have hvalid := toNat_lt_or_gt c
  have hnot : isLowSurrogate high.value = false := by
    simp only [isLowSurrogate, hh, Bool.and_eq_false_iff, decide_eq_false_iff_not]
    omega
  have hhigh : isHighSurrogate high.value = true := by
    simp only [isHighSurrogate, hh, Bool.and_eq_true, decide_eq_true_eq]
    omega
  have hlow : isLowSurrogate low.value = true := by
    simp only [isLowSurrogate, hl, Bool.and_eq_true, decide_eq_true_eq]
    omega
  have hchar : ofSurrogates high.value low.value = c := by
    have hsum : 0x10000 + (high.value - 0xD800) * 0x400 + (low.value - 0xDC00) = c.toNat := by
      omega
    rw [ofSurrogates, hsum, Char.ofNat_toNat]
  have hmark (cs : List Char) : word escapeMark ('\\' :: 'u' :: cs) = .ok cs := rfl
  simp only [scanEscape, scanGroup, scanLowSurrogate, scanUnit_text, hnot, hhigh, hmark, hlow,
    hchar, Bool.false_eq_true, ↓reduceIte]

theorem isControl_eq_false {c : Char} (h : 0x20 ≤ c.toNat) : isControl c = false := by
  simp only [isControl, decide_eq_false_iff_not]
  omega

theorem scanStringFrom_plain {c : Char} (h : 0x20 ≤ c.toNat ∧ c ≠ '"' ∧ c ≠ '\\')
    (read : List Char) : scanStringFrom read (c :: rest) = scanStringFrom (c :: read) rest := by
  rw [scanStringFrom, if_neg h.2.1, if_neg h.2.2, isControl_eq_false h.1]
  rfl

theorem scanStringFrom_escape {cs : List Char} {d : Char} (h : scanEscape cs = .ok (d, rest))
    (read : List Char) : scanStringFrom read ('\\' :: cs) = scanStringFrom (d :: read) rest := by
  rw [scanStringFrom, if_neg (by decide), if_pos rfl]
  split
  · rename_i h'
    rw [h] at h'
    cases h'
    rfl
  · rename_i h'
    rw [h] at h'
    cases h'

theorem scanStringFrom_text {l : Literal} {ds : List Char} (h : l.Denotes ds) (read : List Char) :
    scanStringFrom read (l.flatMap Piece.text ++ '"' :: rest) =
      .ok (String.ofList (read.reverse ++ ds), rest) := by
  induction h generalizing read with
  | nil => simp [scanStringFrom]
  | plain ordinary _ ih =>
    simp only [List.flatMap_cons, Piece.text, List.cons_append, List.nil_append]
    rw [scanStringFrom_plain ordinary, ih]
    simp
  | short e _ ih =>
    simp only [List.flatMap_cons, Piece.text, List.cons_append, List.nil_append]
    rw [scanStringFrom_escape (scanEscape_short e), ih]
    simp
  | unit hu _ ih =>
    simp only [List.flatMap_cons, Piece.text, List.cons_append, List.append_assoc]
    rw [scanStringFrom_escape (scanEscape_unit hu), ih]
    simp
  | pair hc hh hl _ ih =>
    simp only [List.flatMap_cons, Piece.text, List.cons_append, List.append_assoc]
    rw [scanStringFrom_escape (scanEscape_pair hc hh hl), ih]
    simp

theorem scanString_text {l : Literal} {ds : List Char} (h : l.Denotes ds) (rest : List Char) :
    scanString (l.flatMap Piece.text ++ '"' :: rest) = .ok (String.ofList ds, rest) :=
  scanStringFrom_text h []

theorem skipString_escape {cs : List Char} (h : skipEscape cs = .ok rest) :
    skipString ('\\' :: cs) = skipString rest := by
  rw [skipString, if_neg (by decide), if_pos rfl]
  split
  · rename_i h'
    rw [h] at h'
    cases h'
    rfl
  · rename_i h'
    rw [h] at h'
    cases h'

theorem skipEscape_unit (u : CodeUnit) : skipEscape ('u' :: (u.text ++ rest)) = .ok rest := by
  simp only [skipEscape, scanUnit_text]
  rfl

theorem skipString_text (l : Literal) (rest : List Char) :
    skipString (l.flatMap Piece.text ++ '"' :: rest) = .ok rest := by
  induction l with
  | nil =>
    rw [List.flatMap_nil, List.nil_append, skipString]
    rfl
  | cons p l ih =>
    simp only [List.flatMap_cons, List.append_assoc]
    cases p with
    | plain c ordinary =>
      rw [Piece.text, List.singleton_append, skipString, if_neg ordinary.2.1, if_neg ordinary.2.2,
        isControl_eq_false ordinary.1, ← ih]
      rfl
    | short e =>
      refine (skipString_escape ?_).trans ih
      cases e <;> rfl
    | unit u =>
      exact (skipString_escape (skipEscape_unit u)).trans ih

end Strings

/-! ## Numbers -/

theorem takeWhile_of_stops {p : Char → Bool} {cs : List Char} (h : Stops p cs) :
    cs.takeWhile p = [] := by
  cases cs with
  | nil => rfl
  | cons c cs => rw [List.takeWhile_cons_of_neg (by rw [h.head]; exact Bool.false_ne_true)]

theorem dropWhile_of_stops {p : Char → Bool} {cs : List Char} (h : Stops p cs) :
    cs.dropWhile p = cs := by
  cases cs with
  | nil => rfl
  | cons c cs => rw [List.dropWhile_cons_of_neg (by rw [h.head]; exact Bool.false_ne_true)]

/-- Characters that go on with a number. -/
def continuesNumber (c : Char) : Bool :=
  c.isDigit || (c == '.' || (c == 'e' || c == 'E'))

/-- Text that ends a class of characters ends every smaller class. -/
theorem stops_of_imp {p q : Char → Bool} {cs : List Char} (h : Stops q cs)
    (hpq : ∀ c, q c = false → p c = false) : Stops p cs :=
  fun c hc => hpq c (h c hc)

theorem stops_isDigit {cs : List Char} (h : Stops continuesNumber cs) : Stops Char.isDigit cs :=
  stops_of_imp h fun c hc => by
    simp only [continuesNumber, Bool.or_eq_false_iff] at hc
    exact hc.1

theorem stops_point {cs : List Char} (h : Stops continuesNumber cs) : Stops (· == '.') cs :=
  stops_of_imp h fun c hc => by
    simp only [continuesNumber, Bool.or_eq_false_iff] at hc
    exact hc.2.1

theorem Digits.text_ne_nil (ds : Digits) : ds.text ≠ [] :=
  fun h => ds.ne_nil (List.map_eq_nil_iff.1 h)

theorem Digits.isDigit_of_mem {ds : Digits} {c : Char} (h : c ∈ ds.text) : c.isDigit = true := by
  obtain ⟨d, _, rfl⟩ := List.mem_map.1 h
  rw [Nat.isDigit_digitChar]
  exact decide_eq_true d.isLt

section Numbers

variable {rest : List Char}

theorem scanDigits_append {cs : List Char} (hd : ∀ c ∈ cs, c.isDigit = true) (hne : cs ≠ [])
    (hr : Stops Char.isDigit rest) : scanDigits (cs ++ rest) = .ok (cs.map digitValue, rest) := by
  rw [scanDigits, takeDigits, List.takeWhile_append_of_pos hd, List.dropWhile_append_of_pos hd,
    takeWhile_of_stops hr, dropWhile_of_stops hr, List.append_nil]
  cases cs with
  | nil => exact absurd rfl hne
  | cons c cs => rfl

theorem scanDigits_text (ds : Digits) (hr : Stops Char.isDigit rest) :
    scanDigits (ds.text ++ rest) = .ok (ds.text.map digitValue, rest) :=
  scanDigits_append (fun _ => Digits.isDigit_of_mem) ds.text_ne_nil hr

/-- No zero leads a number that is not zero. -/
theorem head_toDigits {n : Nat} (h : n ≠ 0) : ∀ c ∈ (Nat.toDigits 10 n).head?, c ≠ '0' := by
  induction n using Nat.strongRecOn with
  | _ n ih =>
    by_cases hn : n < 10
    · rw [Nat.toDigits_of_lt_base hn]
      rintro c ⟨⟩ hc
      have hnat := congrArg Char.toNat hc
      rw [Nat.toNat_digitChar_of_lt_ten hn] at hnat
      exact h (Nat.add_left_cancel hnat)
    · rw [Nat.toDigits_of_base_le (by omega) (by omega), List.head?_append_of_ne_nil _
        Nat.toDigits_ne_nil]
      exact ih (n / 10) (by omega) (by omega)

theorem scanWhole_toDigits (n : Nat) (hr : Stops Char.isDigit rest) :
    scanWhole (Nat.toDigits 10 n ++ rest) = .ok ((Nat.toDigits 10 n).map digitValue, rest) := by
  have hdigits : scanDigits (Nat.toDigits 10 n ++ rest) =
      .ok ((Nat.toDigits 10 n).map digitValue, rest) :=
    scanDigits_append (fun c => Nat.isDigit_of_mem_toDigits (by omega) (by omega))
      Nat.toDigits_ne_nil hr
  by_cases hn : n = 0
  · subst hn
    cases rest with
    | nil => rfl
    | cons c rest =>
      show scanWhole ('0' :: c :: rest) = _
      simp only [scanWhole, hr.head]
      rfl
  · rw [← hdigits, scanWhole]
    intro c cs h
    refine head_toDigits hn '0' ?_ rfl
    rw [← List.head?_append_of_ne_nil _ Nat.toDigits_ne_nil, h]
    rfl

def Exponent.value (e : Exponent) : Int :=
  let n : Int := Number.ofDigits (e.digits.text.map digitValue)
  match e.sign with
  | some .minus => -n
  | _ => n

/-- The number that is read. -/
def NumberLiteral.parsed (x : NumberLiteral) : Number where
  negative := x.negative
  whole := (Nat.toDigits 10 x.whole).map digitValue
  fraction := x.fraction.map fun ds => ds.text.map digitValue
  exponent := x.exponent.map Exponent.value

theorem scanFraction_text (ds : Option Digits) (hr : Stops Char.isDigit rest)
    (hp : Stops (· == '.') rest) :
    scanFraction (ds.toList.flatMap (fun ds => '.' :: ds.text) ++ rest) =
      .ok (ds.map fun ds => ds.text.map digitValue, rest) := by
  cases ds with
  | none =>
    show scanFraction rest = _
    rw [scanFraction]
    · rfl
    · rintro cs rfl
      exact absurd hp.head (by decide)
  | some ds =>
    simp only [Option.toList_some, List.flatMap_singleton, List.cons_append, scanFraction,
      scanDigits_text ds hr]
    rfl

theorem scanExponentDigits_text (negative : Bool) (ds : Digits) (hr : Stops Char.isDigit rest) :
    scanExponentDigits negative (ds.text ++ rest) =
      let n : Int := Number.ofDigits (ds.text.map digitValue)
      .ok (some (if negative then -n else n), rest) := by
  rw [scanExponentDigits, scanDigits_text ds hr]
  rfl

theorem scanSignedExponent_text (e : Exponent) (hr : Stops Char.isDigit rest) :
    scanSignedExponent (e.sign.toList.map Sign.char ++ e.digits.text ++ rest) =
      .ok (some e.value, rest) := by
  obtain ⟨_, sign, ds⟩ := e
  cases sign with
  | none =>
    show scanSignedExponent (ds.text ++ rest) = _
    have hhead : ∀ c ∈ (ds.text ++ rest).head?, c.isDigit = true := by
      rw [List.head?_append_of_ne_nil _ ds.text_ne_nil]
      exact fun c hc => Digits.isDigit_of_mem (List.mem_of_mem_head? hc)
    rw [scanSignedExponent]
    · exact scanExponentDigits_text false ds hr
    · intro cs h
      exact absurd (hhead '+' (by rw [h]; rfl)) (by decide)
    · intro cs h
      exact absurd (hhead '-' (by rw [h]; rfl)) (by decide)
  | some sign =>
    cases sign with
    | plus => exact scanExponentDigits_text false ds hr
    | minus => exact scanExponentDigits_text true ds hr

theorem scanExponent_text (e : Option Exponent) (hr : Stops continuesNumber rest) :
    scanExponent (e.toList.flatMap Exponent.text ++ rest) = .ok (e.map Exponent.value, rest) := by
  cases e with
  | none =>
    show scanExponent rest = _
    rw [scanExponent]
    · rfl
    · rintro cs rfl
      exact absurd hr.head (by decide)
    · rintro cs rfl
      exact absurd hr.head (by decide)
  | some e =>
    have hsigned := scanSignedExponent_text e (stops_isDigit hr)
    simp only [Option.toList_some, List.flatMap_singleton, Exponent.text, List.cons_append]
    cases e.upper with
    | false => exact hsigned
    | true => exact hsigned

theorem stops_exponent (e : Option Exponent) {p : Char → Bool} (he : p 'e' = false)
    (hE : p 'E' = false) (hr : Stops p rest) :
    Stops p (e.toList.flatMap Exponent.text ++ rest) := by
  cases e with
  | none => exact hr
  | some e =>
    simp only [Option.toList_some, List.flatMap_singleton, Exponent.text, List.cons_append]
    cases e.upper with
    | false => exact stops_cons he _
    | true => exact stops_cons hE _

theorem scanUnsigned_text (x : NumberLiteral) (hr : Stops continuesNumber rest) :
    scanUnsigned x.negative (Nat.toDigits 10 x.whole ++
      (x.fraction.toList.flatMap (fun ds => '.' :: ds.text) ++
        (x.exponent.toList.flatMap Exponent.text ++ rest))) = .ok (x.parsed, rest) := by
  have hde := stops_exponent x.exponent (by decide) (by decide) (stops_isDigit hr)
  have hpe := stops_exponent x.exponent (by decide) (by decide) (stops_point hr)
  have hdf : Stops Char.isDigit (x.fraction.toList.flatMap (fun ds => '.' :: ds.text) ++
      (x.exponent.toList.flatMap Exponent.text ++ rest)) := by
    cases x.fraction with
    | none => exact hde
    | some ds => exact stops_cons (by decide) _
  simp only [scanUnsigned, scanWhole_toDigits _ hdf, scanFraction_text _ hde hpe,
    scanExponent_text _ hr]
  rfl

theorem scanNumber_text (x : NumberLiteral) (hr : Stops continuesNumber rest) :
    scanNumber (x.text ++ rest) = .ok (x.parsed, rest) := by
  have hunsigned := scanUnsigned_text x hr
  simp only [NumberLiteral.text, List.append_assoc]
  cases hn : x.negative with
  | true =>
    rw [hn] at hunsigned
    exact hunsigned
  | false =>
    rw [hn] at hunsigned
    simp only [Bool.false_eq_true, ↓reduceIte, List.nil_append]
    rw [scanNumber, hunsigned]
    intro cs h
    have hhead : ∀ c ∈ (Nat.toDigits 10 x.whole).head?, c.isDigit = true :=
      fun c hc => Nat.isDigit_of_mem_toDigits (by omega) (by omega) (List.mem_of_mem_head? hc)
    refine absurd (hhead '-' ?_) (by decide)
    rw [← List.head?_append_of_ne_nil _ Nat.toDigits_ne_nil, h]
    rfl

end Numbers

theorem integer?_ofInt (n : Int) : (NumberLiteral.ofInt n).parsed.integer? = some n := by
  have hdigits (m : Nat) : Number.ofDigits ((Nat.toDigits 10 m).map digitValue) = m := by
    rw [Number.ofDigits, List.foldl_map]
    exact Nat.ofDigitChars_toDigits (by omega) (by omega)
  simp only [NumberLiteral.ofInt, NumberLiteral.parsed, Number.integer?, hdigits, Option.map_none]
  split
  · rename_i h
    have hneg : n < 0 := of_decide_eq_true h
    rw [if_neg (by omega)]
    congr 1
    omega
  · rename_i h
    have hneg : ¬ n < 0 := fun hn => h (decide_eq_true hn)
    congr 1
    omega

end Json
end Monomorph
