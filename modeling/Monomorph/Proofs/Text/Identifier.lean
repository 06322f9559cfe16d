import Monomorph.Proofs.Text.Numeral
import Monomorph.Text.Identifier

/-!
# Monomorph.Proofs.Text.Identifier

Escaped names can be read back. Escaping writes the UTF-16 units of a name, some of them as
groups; `units` recovers the units from the text, and `ofUnits` the characters
from the units.

* `unescapeChars_escapeChars`: reading an escaped name gives the name.
* `escape_injective`: so different names have different escaped forms.
* `mem_escapeChars`: an escaped name consists of plain characters and backslashes.
* `escapeChars_eq_self_iff`: only plain names stay as they are, since any other character grows.
* `escape_uniquely_decodable`: all of this for names as texts, with the surrogates.
-/

namespace Monomorph
namespace Identifier

theorem toNat_lt_of_isPlain {c : Char} (h : isPlain c = true) : c.toNat < 0x80 := by
  have below : ∀ d : Char, c.val ≤ d.val → d.toNat < 0x80 → c.toNat < 0x80 :=
    fun d hd => Nat.lt_of_le_of_lt hd
  simp only [isPlain, Bool.or_eq_true, beq_iff_eq] at h
  rcases h with ((((h | rfl) | rfl) | rfl) | rfl) | rfl
  · have h : (c.isUpper || c.isLower || c.isDigit) = true := h
    rw [Bool.or_eq_true, Bool.or_eq_true] at h
    rcases h with (hu | hl) | hd
    · have hu : 'A'.val ≤ c.val ∧ c.val ≤ 'Z'.val := of_decide_eq_true hu
      exact below 'Z' hu.2 (by decide)
    · have hl : c.val ≤ 'z'.val := of_decide_eq_true (Bool.and_eq_true_iff.1 hl).2
      exact below 'z' hl (by decide)
    · have hd : c.val ≤ '9'.val := of_decide_eq_true (Bool.and_eq_true_iff.1 hd).2
      exact below '9' hd (by decide)
  all_goals decide

theorem utf16Units_of_isPlain {c : Char} (h : isPlain c = true) : utf16Units c = [c.toNat] := by
  have hc := toNat_lt_of_isPlain h
  rw [utf16Units, if_pos (by omega)]

/-- A character is below the surrogates, or above them and within the seventeen planes. -/
theorem toNat_valid (c : Char) : c.toNat < 0xD800 ∨ 0xDFFF < c.toNat ∧ c.toNat < 0x110000 :=
  c.valid

theorem lt_of_mem_utf16Units {c : Char} {unit : Nat} (h : unit ∈ utf16Units c) :
    unit < 0x10000 := by
  have hc := toNat_valid c
  rw [utf16Units] at h
  split at h
  · rw [List.mem_singleton] at h
    omega
  · simp only [List.mem_cons, List.not_mem_nil, or_false] at h
    omega

/-! ## From the escaped text to the units -/

/-- The value of an upper-case hexadecimal digit. -/
def hexValue (c : Char) : Nat :=
  if c.isDigit then c.toNat - '0'.toNat else c.toNat - 'A'.toNat + 10

theorem hexValue_hexDigit : ∀ n < 16, hexValue (Numeral.hexDigit n) = n := by
  decide

/-- The UTF-16 units that a text stands for: one for each group and for each other character. -/
def units : List Char → List Nat
  | '\\' :: 'u' :: a :: b :: c :: d :: rest =>
    (((hexValue a * 16 + hexValue b) * 16 + hexValue c) * 16 + hexValue d) :: units rest
  | c :: rest => c.toNat :: units rest
  | [] => []

theorem units_escapeUnit {unit : Nat} (h : unit < 0x10000) (rest : List Char) :
    units (escapeUnit unit ++ rest) = unit :: units rest := by
  have h3 := hexValue_hexDigit (unit / 4096 % 16) (by omega)
  have h2 := hexValue_hexDigit (unit / 256 % 16) (by omega)
  have h1 := hexValue_hexDigit (unit / 16 % 16) (by omega)
  have h0 := hexValue_hexDigit (unit % 16) (by omega)
  simp only [escapeUnit, Numeral.fourHexDigits, List.cons_append, List.nil_append, units, h3, h2,
    h1, h0, List.cons.injEq, and_true]
  omega

theorem units_flatMap_escapeUnit (us : List Nat) (h : ∀ u ∈ us, u < 0x10000)
    (rest : List Char) : units (us.flatMap escapeUnit ++ rest) = us ++ units rest := by
  induction us with
  | nil => rfl
  | cons u us ih =>
    rw [List.flatMap_cons, List.append_assoc, units_escapeUnit (h u (by simp)),
      ih fun v hv => h v (by simp [hv])]
    rfl

theorem units_cons {c : Char} (h : c ≠ '\\') (rest : List Char) :
    units (c :: rest) = c.toNat :: units rest := by
  rw [units]
  intro a b d e rest' hc
  exact absurd hc h

theorem units_escapeChar (c : Char) (rest : List Char) :
    units (escapeChar c ++ rest) = utf16Units c ++ units rest := by
  rw [escapeChar]
  split
  · rename_i hp
    have hb : c ≠ '\\' := by
      rintro rfl
      exact absurd hp (by decide)
    rw [utf16Units_of_isPlain hp, List.singleton_append, units_cons hb]
    rfl
  · exact units_flatMap_escapeUnit _ (fun _ => lt_of_mem_utf16Units) rest

theorem units_escapeChars (cs : List Char) :
    units (escapeChars cs) = cs.flatMap utf16Units := by
  induction cs with
  | nil => rfl
  | cons c cs ih =>
    rw [escapeChars, List.flatMap_cons, units_escapeChar, List.flatMap_cons, ← ih]
    rfl

/-! ## From the units to the characters -/

/-- The characters of a sequence of UTF-16 units. -/
def ofUnits : List Nat → List Char
  | [] => []
  | [unit] => [Char.ofNat unit]
  | unit :: low :: rest =>
    if 0xD800 ≤ unit ∧ unit < 0xDC00 then
      Char.ofNat (0x10000 + (unit - 0xD800) * 0x400 + (low - 0xDC00)) :: ofUnits rest
    else Char.ofNat unit :: ofUnits (low :: rest)

theorem ofUnits_cons {unit : Nat} (h : ¬(0xD800 ≤ unit ∧ unit < 0xDC00)) (rest : List Nat) :
    ofUnits (unit :: rest) = Char.ofNat unit :: ofUnits rest := by
  cases rest with
  | nil => rfl
  | cons low rest => rw [ofUnits, if_neg h]

theorem ofUnits_utf16Units (c : Char) (rest : List Nat) :
    ofUnits (utf16Units c ++ rest) = c :: ofUnits rest := by
  have hc := toNat_valid c
  rw [utf16Units]
  split
  · rw [List.singleton_append, ofUnits_cons (by omega), Char.ofNat_toNat]
  · simp only [List.cons_append, List.nil_append]
    rw [ofUnits, if_pos (by omega)]
    have hn : 0x10000 + (0xD800 + (c.toNat - 0x10000) / 0x400 - 0xD800) * 0x400 +
        (0xDC00 + (c.toNat - 0x10000) % 0x400 - 0xDC00) = c.toNat := by omega
    rw [hn, Char.ofNat_toNat]

theorem ofUnits_flatMap_utf16Units (cs : List Char) : ofUnits (cs.flatMap utf16Units) = cs := by
  induction cs with
  | nil => rfl
  | cons c cs ih => rw [List.flatMap_cons, ofUnits_utf16Units, ih]

/-! ## Reading back -/

/-- The name of an escaped text. -/
def unescapeChars (cs : List Char) : List Char :=
  ofUnits (units cs)

theorem unescapeChars_escapeChars (cs : List Char) : unescapeChars (escapeChars cs) = cs := by
  rw [unescapeChars, units_escapeChars, ofUnits_flatMap_utf16Units]

theorem escapeChars_injective {cs ds : List Char} (h : escapeChars cs = escapeChars ds) :
    cs = ds := by
  rw [← unescapeChars_escapeChars cs, h, unescapeChars_escapeChars]

theorem escape_injective {s t : String} (h : escape s = escape t) : s = t := by
  apply String.toList_injective
  apply escapeChars_injective
  rw [← toList_escape, h, toList_escape]

def unescape (text : String) : String :=
  String.ofList (unescapeChars text.toList)

theorem unescape_escape (name : String) : unescape (escape name) = name := by
  simp [unescape, unescapeChars_escapeChars]

/-! ## The alphabet of escaped names -/

/-- A character that may stand in an escaped name. -/
def isEscaped (c : Char) : Bool :=
  isPlain c || c == '\\'

theorem isEscaped_hexDigit : ∀ n < 16, isEscaped (Numeral.hexDigit n) = true := by
  decide

theorem mem_escapeUnit {unit : Nat} {c : Char} (h : c ∈ escapeUnit unit) : isEscaped c = true := by
  simp only [escapeUnit, Numeral.fourHexDigits, List.mem_cons, List.not_mem_nil, or_false] at h
  rcases h with rfl | rfl | rfl | rfl | rfl | rfl
  · rfl
  · rfl
  all_goals exact isEscaped_hexDigit _ (by omega)

theorem mem_escapeChars {cs : List Char} {c : Char} (h : c ∈ escapeChars cs) :
    isEscaped c = true := by
  rw [escapeChars, List.mem_flatMap] at h
  obtain ⟨d, _, hc⟩ := h
  rw [escapeChar] at hc
  split at hc
  · rename_i hp
    rw [List.mem_singleton] at hc
    rw [hc, isEscaped, hp, Bool.true_or]
  · rw [List.mem_flatMap] at hc
    obtain ⟨unit, _, hu⟩ := hc
    exact mem_escapeUnit hu

/-! ## Names that stay as they are -/

theorem length_flatMap_escapeUnit (us : List Nat) :
    (us.flatMap escapeUnit).length = 6 * us.length := by
  induction us with
  | nil => rfl
  | cons u us ih =>
    have hu : (escapeUnit u).length = 6 := rfl
    rw [List.flatMap_cons, List.length_append, ih, hu, List.length_cons]
    omega

theorem utf16Units_ne_nil (c : Char) : utf16Units c ≠ [] := by
  unfold utf16Units
  split <;> simp

/-- Every character is written as one at least, and one that is not plain as more. -/
theorem one_lt_length_escapeChar {c : Char} (h : isPlain c = false) :
    1 < (escapeChar c).length := by
  have hpos := List.length_pos_iff.2 (utf16Units_ne_nil c)
  rw [escapeChar, if_neg (by simp [h]), length_flatMap_escapeUnit]
  omega

theorem length_le_escapeChars (cs : List Char) : cs.length ≤ (escapeChars cs).length := by
  induction cs with
  | nil => simp
  | cons c cs ih =>
    have hc : 1 ≤ (escapeChar c).length := by
      cases h : isPlain c with
      | true => simp [escapeChar, h]
      | false => exact Nat.le_of_lt (one_lt_length_escapeChar h)
    simp only [escapeChars, List.flatMap_cons, List.length_append, List.length_cons] at ih ⊢
    omega

theorem escapeChars_eq_self_iff {cs : List Char} :
    escapeChars cs = cs ↔ ∀ c ∈ cs, isPlain c = true := by
  refine ⟨fun h => ?_, escapeChars_of_plain cs⟩
  induction cs with
  | nil => simp
  | cons c cs ih =>
    have hcons : escapeChar c ++ escapeChars cs = c :: cs := h
    have hlen := congrArg List.length hcons
    have hle := length_le_escapeChars cs
    simp only [List.length_append, List.length_cons] at hlen
    have hc : isPlain c = true := by
      cases hp : isPlain c with
      | true => rfl
      | false =>
        have hlt := one_lt_length_escapeChar hp
        omega
    rw [escapeChar, if_pos hc] at hcons
    simp only [List.mem_cons, forall_eq_or_imp]
    exact ⟨hc, ih (List.cons.inj hcons).2⟩

/-! ## Characters above U+FFFF -/

/-- The two surrogates that stand for a character. -/
structure Surrogates (c : Char) (high low : Nat) : Prop where
  high_range : 0xD800 ≤ high ∧ high < 0xDC00
  low_range : 0xDC00 ≤ low ∧ low < 0xE000
  value : c.toNat = 0x10000 + (high - 0xD800) * 0x400 + (low - 0xDC00)

theorem exists_surrogates {c : Char} (h : 0x10000 ≤ c.toNat) :
    ∃ high low, Surrogates c high low ∧ escapeChar c = escapeUnit high ++ escapeUnit low := by
  have hc := toNat_valid c
  have hp : isPlain c = false := by
    cases hp : isPlain c with
    | false => rfl
    | true =>
      have hlt := toNat_lt_of_isPlain hp
      omega
  refine ⟨0xD800 + (c.toNat - 0x10000) / 0x400, 0xDC00 + (c.toNat - 0x10000) % 0x400,
    ⟨by omega, by omega, by omega⟩, ?_⟩
  rw [escapeChar, if_neg (by simp [hp]), utf16Units, if_neg (by omega)]
  simp

/-! ## Names as texts -/

/-- Escaped names can be read back, name by name and piece by piece, and only plain names stay as
they are. The characters of an escaped name are plain or backslashes, so that no delimiter of a key
is among them; a character above U+FFFF is written as the groups of its two surrogates. -/
theorem escape_uniquely_decodable :
    (∀ name, unescape (escape name) = name) ∧
    (∀ s t, escape s = escape t ↔ s = t) ∧
    (∀ s t, escape (s ++ t) = escape s ++ escape t) ∧
    (∀ name, escape name = name ↔ ∀ c ∈ name.toList, isPlain c = true) ∧
    (∀ name, ∀ c ∈ (escape name).toList,
      (isPlain c = true ∨ c = '\\') ∧ c ∉ ['|', '<', '>', '(', ')', ',']) ∧
    ∀ c : Char, 0x10000 ≤ c.toNat → ∃ high low, Surrogates c high low ∧
      (escape (String.singleton c)).toList = escapeUnit high ++ escapeUnit low := by
  refine ⟨unescape_escape, fun s t => ⟨escape_injective, fun h => h ▸ rfl⟩, escape_append, ?_, ?_,
    ?_⟩
  · intro name
    rw [← String.toList_inj, toList_escape, escapeChars_eq_self_iff]
  · intro name c hc
    rw [toList_escape] at hc
    have hescaped := mem_escapeChars hc
    refine ⟨by simpa [isEscaped] using hescaped, ?_⟩
    intro hd
    have hdelimiters : ['|', '<', '>', '(', ')', ','].all (!isEscaped ·) = true := by decide
    have hplain := List.all_eq_true.1 hdelimiters c hd
    rw [hescaped] at hplain
    cases hplain
  · intro c h
    obtain ⟨high, low, hs, he⟩ := exists_surrogates h
    refine ⟨high, low, hs, ?_⟩
    rw [toList_escape, ← he]
    simp [escapeChars]

/-- A name that looks like an escape and holds delimiters, and a character in a supplementary
plane. -/
theorem escape_uniquely_decodable_mixed :
    unescape (escape "<\\u0041|𝔸>") = "<\\u0041|𝔸>" ∧
    escape "\\u0041" ≠ escape "A" ∧ escape "\\u0041" ≠ "\\u0041" ∧
    ('\\' ∈ (escape "<").toList ∧ '\\' ∉ ['|', '<', '>', '(', ')', ',']) ∧
    0x10000 ≤ '𝔸'.toNat ∧
    (escape (String.singleton '𝔸')).toList = escapeUnit 0xD835 ++ escapeUnit 0xDD38 := by
  obtain ⟨hback, hinj, _, hself, hmem, hsurrogates⟩ := escape_uniquely_decodable
  have hlt : '\\' ∈ (escape "<").toList := by
    rw [toList_escape]
    decide
  have hA : 0x10000 ≤ '𝔸'.toNat := by decide
  refine ⟨hback _, ?_, ?_, ⟨hlt, (hmem "<" '\\' hlt).2⟩, hA, ?_⟩
  · rw [Ne, hinj]
    decide
  · rw [Ne, hself]
    intro h
    exact absurd (h '\\' (by decide)) (by decide)
  · obtain ⟨high, low, hs, he⟩ := hsurrogates '𝔸' hA
    have hvalue : 0x1D538 = 0x10000 + (high - 0xD800) * 0x400 + (low - 0xDC00) := hs.value
    have hhigh := hs.high_range
    have hlow := hs.low_range
    obtain ⟨rfl, rfl⟩ : high = 0xD835 ∧ low = 0xDD38 := by omega
    exact he

end Identifier
end Monomorph
