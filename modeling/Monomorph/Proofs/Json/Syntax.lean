import Mathlib.Data.List.Forall2

/-!
# Monomorph.Proofs.Json.Syntax

JSON as it is written. A `Value` keeps all that a text decides but blanks: how each character of a
string is escaped, the digits of numbers, and the order of members. Every `Value` is valid JSON.

* `Literal.Denotes`: the characters that a string literal stands for. A single surrogate stands
  for none.
* `Value.tokens`, `Lays`: the tokens of a value, and texts that lay them out with blanks between.
* `Value.Writes`: the texts of a value, with blanks around it.
* `Value.depth`: how many brackets are open at once.
-/

namespace Monomorph
namespace Json

/-! ## Strings -/

/-- A hexadecimal digit. From ten on it is a letter, of either case. -/
structure HexDigit where
  value : Fin 16
  upper : Bool

def HexDigit.char (d : HexDigit) : Char :=
  if d.upper then (Nat.digitChar d.value).toUpper else Nat.digitChar d.value

/-- The four digits of a UTF-16 code unit. -/
structure CodeUnit where
  first : HexDigit
  second : HexDigit
  third : HexDigit
  fourth : HexDigit

namespace CodeUnit

def value (u : CodeUnit) : Nat :=
  4096 * u.first.value + 256 * u.second.value + 16 * u.third.value + u.fourth.value

def text (u : CodeUnit) : List Char :=
  [u.first.char, u.second.char, u.third.char, u.fourth.char]

end CodeUnit

/-- The escapes of one letter. -/
inductive ShortEscape where
  | quote
  | backslash
  | slash
  | backspace
  | formFeed
  | lineFeed
  | carriageReturn
  | tab

namespace ShortEscape

def letter : ShortEscape → Char
  | quote => '"'
  | backslash => '\\'
  | slash => '/'
  | backspace => 'b'
  | formFeed => 'f'
  | lineFeed => 'n'
  | carriageReturn => 'r'
  | tab => 't'

def char : ShortEscape → Char
  | quote => '"'
  | backslash => '\\'
  | slash => '/'
  | backspace => '\x08'
  | formFeed => '\x0c'
  | lineFeed => '\n'
  | carriageReturn => '\r'
  | tab => '\t'

end ShortEscape

/-- A part of a string literal: a character as it is, or an escape. -/
inductive Piece where
  | plain (c : Char) (ordinary : 0x20 ≤ c.toNat ∧ c ≠ '"' ∧ c ≠ '\\')
  | short (e : ShortEscape)
  | unit (u : CodeUnit)

def Piece.text : Piece → List Char
  | plain c _ => [c]
  | short e => ['\\', e.letter]
  | unit u => '\\' :: 'u' :: u.text

/-- What stands between the quotes. -/
abbrev Literal := List Piece

namespace Literal

def text (l : Literal) : List Char :=
  '"' :: (l.flatMap Piece.text ++ ['"'])

/-- The characters that the literal stands for. Those beyond the first plane take two code units,
a high and a low surrogate. -/
inductive Denotes : Literal → List Char → Prop where
  | nil : Denotes [] []
  | plain {c : Char} {l : Literal} {cs : List Char}
      (ordinary : 0x20 ≤ c.toNat ∧ c ≠ '"' ∧ c ≠ '\\') : Denotes l cs →
      Denotes (.plain c ordinary :: l) (c :: cs)
  | short {l : Literal} {cs : List Char} (e : ShortEscape) : Denotes l cs →
      Denotes (.short e :: l) (e.char :: cs)
  | unit {u : CodeUnit} {c : Char} {l : Literal} {cs : List Char} : u.value = c.toNat →
      Denotes l cs → Denotes (.unit u :: l) (c :: cs)
  | pair {high low : CodeUnit} {c : Char} {l : Literal} {cs : List Char} : 0x10000 ≤ c.toNat →
      high.value = 0xD800 + (c.toNat - 0x10000) / 0x400 →
      low.value = 0xDC00 + (c.toNat - 0x10000) % 0x400 → Denotes l cs →
      Denotes (.unit high :: .unit low :: l) (c :: cs)

/-- A text of ordinary characters may stand as it is. -/
theorem denotes_pmap_plain {cs : List Char}
    (ordinary : ∀ c ∈ cs, 0x20 ≤ c.toNat ∧ c ≠ '"' ∧ c ≠ '\\') :
    Denotes (cs.pmap Piece.plain ordinary) cs := by
  induction cs with
  | nil => exact .nil
  | cons c cs ih => exact .plain _ (ih _)

end Literal

/-! ## Numbers -/

/-- Digits that stand after a point or in an exponent; zeros may lead them. -/
structure Digits where
  digits : List (Fin 10)
  ne_nil : digits ≠ []

def Digits.text (ds : Digits) : List Char :=
  ds.digits.map fun d : Fin 10 => Nat.digitChar d

inductive Sign where
  | plus
  | minus

def Sign.char : Sign → Char
  | plus => '+'
  | minus => '-'

structure Exponent where
  upper : Bool
  sign : Option Sign
  digits : Digits

def Exponent.text (e : Exponent) : List Char :=
  (if e.upper then 'E' else 'e') :: (e.sign.toList.map Sign.char ++ e.digits.text)

/-- A number; its whole part has no leading zeros. -/
structure NumberLiteral where
  negative : Bool
  whole : Nat
  fraction : Option Digits
  exponent : Option Exponent

namespace NumberLiteral

def text (x : NumberLiteral) : List Char :=
  (if x.negative then ['-'] else []) ++ (Nat.toDigits 10 x.whole ++
    (x.fraction.toList.flatMap (fun ds => '.' :: ds.text) ++
      x.exponent.toList.flatMap Exponent.text))

/-- The literal of an integer. -/
def ofInt (n : Int) : NumberLiteral :=
  ⟨n < 0, n.natAbs, none, none⟩

end NumberLiteral

/-! ## Values -/

inductive Value where
  | null
  | bool (b : Bool)
  | number (x : NumberLiteral)
  | string (l : Literal)
  | array (items : List Value)
  | object (members : List (Literal × Value))

abbrev Token := List Char

namespace Value

/-- The comma between an item and the one before it. -/
def separator (first : Bool) : List Token :=
  if first then [] else [[',']]

mutual

def tokens : Value → List Token
  | null => [['n', 'u', 'l', 'l']]
  | bool true => [['t', 'r', 'u', 'e']]
  | bool false => [['f', 'a', 'l', 's', 'e']]
  | number x => [x.text]
  | string l => [l.text]
  | array items => ['['] :: itemTokens true items
  | object members => ['{'] :: memberTokens true members

/-- The items of an array, up to its end. -/
def itemTokens (first : Bool) : List Value → List Token
  | [] => [[']']]
  | v :: rest => separator first ++ (v.tokens ++ itemTokens false rest)

def memberTokens (first : Bool) : List (Literal × Value) → List Token
  | [] => [['}']]
  | (l, v) :: rest =>
    separator first ++ (l.text :: [':'] :: (v.tokens ++ memberTokens false rest))

end

mutual

/-- How many brackets are open at once. -/
def depth : Value → Nat
  | array items => depthOfItems items + 1
  | object members => depthOfMembers members + 1
  | _ => 0

def depthOfItems : List Value → Nat
  | [] => 0
  | v :: rest => max v.depth (depthOfItems rest)

def depthOfMembers : List (Literal × Value) → Nat
  | [] => 0
  | (_, v) :: rest => max v.depth (depthOfMembers rest)

end

end Value

/-! ## Texts -/

def Blanks (cs : List Char) : Prop :=
  ∀ c ∈ cs, c = ' ' ∨ c = '\t' ∨ c = '\n' ∨ c = '\r'

/-- The text lays out the tokens, with blanks before each of them. -/
inductive Lays : List Token → List Char → Prop where
  | nil : Lays [] []
  | cons {blanks : List Char} {t : Token} {ts : List Token} {cs : List Char} : Blanks blanks →
      Lays ts cs → Lays (t :: ts) (blanks ++ (t ++ cs))

/-- The text is that of the value, with blanks wherever they may stand. -/
inductive Value.Writes (v : Value) (text : String) : Prop where
  | mk {cs blanks : List Char} : Lays v.tokens cs → Blanks blanks →
      text.toList = cs ++ blanks → Writes v text

theorem lays_flatMap {blanks : List Char} (h : Blanks blanks) (ts : List Token) :
    Lays ts (ts.flatMap (blanks ++ ·)) := by
  induction ts with
  | nil => exact .nil
  | cons t ts ih =>
    rw [List.flatMap_cons, List.append_assoc]
    exact .cons h ih

/-- The same blanks may stand before all tokens. -/
theorem Value.writes_of_blanks {v : Value} {blanks : List Char} {text : String}
    (h : Blanks blanks) (htext : text.toList = v.tokens.flatMap (blanks ++ ·)) : v.Writes text :=
  ⟨lays_flatMap h v.tokens, List.forall_mem_nil _, htext.trans (List.append_nil _).symm⟩

end Json
end Monomorph
