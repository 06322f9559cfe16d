import Monomorph.Text.Numeral

/-!
# Monomorph.Text.Identifier

Escaped identifiers. A plain character stands for itself; any other is written as one
backslash-`u` group of four hexadecimal digits for each of its UTF-16 units, so that an escaped
name never holds a delimiter of a key. Escaping works character by character
(`escape_append`), and plain names escape to themselves (`escapeChars_of_plain`).
-/

namespace Monomorph
namespace Identifier

/-- Plain characters are the ASCII letters and digits, `_`, the grave accent, `.`, `:` and `/`. -/
def isPlain (c : Char) : Bool :=
  c.isAlphanum || c == '_' || c == '\x60' || c == '.' || c == ':' || c == '/'

/-- The UTF-16 units of a character: itself, or a pair of surrogates above U+FFFF. -/
def utf16Units (c : Char) : List Nat :=
  if c.toNat < 0x10000 then [c.toNat]
  else [0xD800 + (c.toNat - 0x10000) / 0x400, 0xDC00 + (c.toNat - 0x10000) % 0x400]

/-- One unit as a backslash, the letter `u` and four digits. -/
def escapeUnit (unit : Nat) : List Char :=
  '\\' :: 'u' :: Numeral.fourHexDigits unit

def escapeChar (c : Char) : List Char :=
  if isPlain c then [c] else (utf16Units c).flatMap escapeUnit

def escapeChars (cs : List Char) : List Char :=
  cs.flatMap escapeChar

def escape (name : String) : String :=
  String.ofList (escapeChars name.toList)

example : escapeChars ['a', ' ', '\x60'] = "a\\u0020\x60".toList := by decide

example : escapeChars ['𝔸'] = "\\uD835\\uDD38".toList := by decide

@[simp] theorem toList_escape (name : String) : (escape name).toList = escapeChars name.toList := by
  simp [escape]

theorem escapeChars_append (cs ds : List Char) :
    escapeChars (cs ++ ds) = escapeChars cs ++ escapeChars ds := by
  simp [escapeChars]

theorem escape_append (s t : String) : escape (s ++ t) = escape s ++ escape t := by
  apply String.toList_injective
  simp [escapeChars_append]

theorem escapeChars_of_plain (cs : List Char) (h : ∀ c ∈ cs, isPlain c = true) :
    escapeChars cs = cs := by
  induction cs with
  | nil => rfl
  | cons c cs ih =>
    have hc : isPlain c = true := h c (by simp)
    have hcs : escapeChars cs = cs := ih fun d hd => h d (by simp [hd])
    simp only [escapeChars, List.flatMap_cons] at hcs ⊢
    simp [escapeChar, hc, hcs]

end Identifier
end Monomorph
