import Monomorph.Json.Number

/-!
# Monomorph.Json.Scan

The tokens of JSON: blanks, words, numbers and strings. A scanner takes the characters that are
left and answers a token with the characters after it, or a `Fault`.

A fault tells where reading stopped. The character that cannot go on counts as read, so that a
line break which cuts a token short stands on the line it begins.
-/

namespace Monomorph
namespace Json

/-- The end of reading. `rest` is what was not read any more. A fault that is not `settled`
was noticed only after the text of a value: the enclosing record or list still tries to read
its closing bracket. -/
structure Fault where
  rest : List Char
  settled : Bool
  deriving DecidableEq

def Fault.before (rest : List Char) : Fault :=
  ⟨rest, true⟩

/-- A fault at the first of the characters, if there is one. -/
def Fault.at (cs : List Char) : Fault :=
  ⟨cs.tail, true⟩

abbrev Scan (α : Type) := List Char → Except Fault (α × List Char)

/-! ## Blanks and words -/

/-- Blanks are spaces, tabs, line feeds and carriage returns. -/
def isBlank (c : Char) : Bool :=
  c == ' ' || c == '\t' || c == '\n' || c == '\r'

def skipBlanks (cs : List Char) : List Char :=
  cs.dropWhile isBlank

def word : List Char → List Char → Except Fault (List Char)
  | [], cs => .ok cs
  | _ :: _, [] => .error (.before [])
  | w :: ws, c :: cs => if c = w then word ws cs else .error (.before cs)

/-! ## Numbers -/

def digitValue (c : Char) : Nat :=
  c.toNat - 48

def takeDigits (cs : List Char) : List Nat × List Char :=
  ((cs.takeWhile Char.isDigit).map digitValue, cs.dropWhile Char.isDigit)

def scanDigits : Scan (List Nat) := fun cs =>
  match takeDigits cs with
  | ([], _) => .error (.at cs)
  | found => .ok found

/-- The whole part: a zero alone, or digits that start with another. -/
def scanWhole : Scan (List Nat) := fun cs =>
  match cs with
  | '0' :: c :: rest => if c.isDigit then .error (.before rest) else .ok ([0], c :: rest)
  | _ => scanDigits cs

def scanFraction : Scan (Option (List Nat)) := fun cs =>
  match cs with
  | '.' :: rest => (scanDigits rest).map fun (ds, rest) => (some ds, rest)
  | _ => .ok (none, cs)

def scanExponentDigits (negative : Bool) : Scan (Option Int) := fun cs =>
  (scanDigits cs).map fun (ds, rest) =>
    let n : Int := Number.ofDigits ds
    (some (if negative then -n else n), rest)

def scanSignedExponent : Scan (Option Int) := fun cs =>
  match cs with
  | '+' :: rest => scanExponentDigits false rest
  | '-' :: rest => scanExponentDigits true rest
  | _ => scanExponentDigits false cs

def scanExponent : Scan (Option Int) := fun cs =>
  match cs with
  | 'e' :: rest => scanSignedExponent rest
  | 'E' :: rest => scanSignedExponent rest
  | _ => .ok (none, cs)

def scanUnsigned (negative : Bool) : Scan Number := fun cs =>
  match scanWhole cs with
  | .error f => .error f
  | .ok (whole, cs) =>
    match scanFraction cs with
    | .error f => .error f
    | .ok (fraction, cs) =>
      match scanExponent cs with
      | .error f => .error f
      | .ok (exponent, cs) => .ok (⟨negative, whole, fraction, exponent⟩, cs)

def scanNumber : Scan Number := fun cs =>
  match cs with
  | '-' :: rest => scanUnsigned true rest
  | _ => scanUnsigned false cs

/-! ## Strings -/

def shortEscape? : Char → Option Char
  | '"' => some '"'
  | '\\' => some '\\'
  | '/' => some '/'
  | 'b' => some '\x08'
  | 'f' => some '\x0c'
  | 'n' => some '\n'
  | 'r' => some '\r'
  | 't' => some '\t'
  | _ => none

def hexValue? (c : Char) : Option Nat :=
  if c.isDigit then some (c.toNat - 48)
  else if 'a' ≤ c ∧ c ≤ 'f' then some (c.toNat - 87)
  else if 'A' ≤ c ∧ c ≤ 'F' then some (c.toNat - 55)
  else none

def unit? (a b c d : Char) : Option Nat := do
  return 4096 * (← hexValue? a) + 256 * (← hexValue? b) + 16 * (← hexValue? c) + (← hexValue? d)

/-- Leaves out whole characters until `n` bytes are passed. -/
def dropBytes : Nat → List Char → List Char
  | 0, cs => cs
  | _, [] => []
  | n + 1, c :: cs => dropBytes (n + 1 - c.utf8Size) cs
termination_by _ cs => cs.length

/-- The fault of a group that is not four hexadecimal digits: its four bytes count as read. -/
def Fault.inGroup (cs : List Char) : Fault :=
  .before (dropBytes 4 cs)

def isHighSurrogate (unit : Nat) : Bool :=
  0xD800 ≤ unit && unit ≤ 0xDBFF

def isLowSurrogate (unit : Nat) : Bool :=
  0xDC00 ≤ unit && unit ≤ 0xDFFF

def ofSurrogates (high low : Nat) : Char :=
  Char.ofNat (0x10000 + (high - 0xD800) * 0x400 + (low - 0xDC00))

def scanUnit : Scan Nat := fun cs =>
  match cs with
  | a :: b :: c :: d :: rest =>
    match unit? a b c d with
    | some unit => .ok (unit, rest)
    | none => .error (.inGroup cs)
  | _ => .error (.inGroup cs)

def escapeMark : List Char :=
  ['\\', 'u']

def scanLowSurrogate (high : Nat) : Scan Char := fun cs =>
  match word escapeMark cs with
  | .error f => .error f
  | .ok cs =>
    match scanUnit cs with
    | .error f => .error f
    | .ok (low, cs) =>
      if isLowSurrogate low then .ok (ofSurrogates high low, cs) else .error (.before cs)

/-- The character of a group of four digits; a first surrogate needs a second one. -/
def scanGroup : Scan Char := fun cs =>
  match scanUnit cs with
  | .error f => .error f
  | .ok (unit, cs) =>
    if isLowSurrogate unit then .error (.before cs)
    else if isHighSurrogate unit then scanLowSurrogate unit cs
    else .ok (Char.ofNat unit, cs)

def scanEscape : Scan Char := fun cs =>
  match cs with
  | [] => .error (.before [])
  | 'u' :: rest => scanGroup rest
  | c :: rest =>
    match shortEscape? c with
    | some d => .ok (d, rest)
    | none => .error (.before rest)

/-- Control characters may not stand in a string as they are. -/
def isControl (c : Char) : Bool :=
  c.toNat < 0x20

/-! ### Scanners take characters away -/

theorem word_length {ws cs rest : List Char} (h : word ws cs = .ok rest) :
    rest.length + ws.length = cs.length := by
  induction ws generalizing cs with
  | nil => simp_all [word]
  | cons w ws ih =>
    cases cs with
    | nil => simp [word] at h
    | cons c cs =>
      simp only [word] at h
      split at h
      · have := ih h
        simp only [List.length_cons]
        omega
      · cases h

theorem scanUnit_length {cs rest : List Char} {unit : Nat} (h : scanUnit cs = .ok (unit, rest)) :
    rest.length + 4 = cs.length := by
  simp only [scanUnit] at h
  split at h
  · split at h
    · cases h
      rfl
    · cases h
  · cases h

theorem scanLowSurrogate_length {high : Nat} {cs rest : List Char} {c : Char}
    (h : scanLowSurrogate high cs = .ok (c, rest)) : rest.length < cs.length := by
  simp only [scanLowSurrogate] at h
  split at h
  · cases h
  · rename_i afterMark hw
    have hl := word_length hw
    split at h
    · cases h
    · rename_i hu
      have hr := scanUnit_length hu
      split at h
      · simp only [Except.ok.injEq, Prod.mk.injEq] at h
        obtain ⟨_, rfl⟩ := h
        omega
      · cases h

theorem scanGroup_length {cs rest : List Char} {c : Char} (h : scanGroup cs = .ok (c, rest)) :
    rest.length < cs.length := by
  simp only [scanGroup] at h
  split at h
  · cases h
  · rename_i hu
    have hr := scanUnit_length hu
    split at h
    · cases h
    · split at h
      · have hs := scanLowSurrogate_length h
        omega
      · simp only [Except.ok.injEq, Prod.mk.injEq] at h
        obtain ⟨_, rfl⟩ := h
        omega

theorem scanEscape_length {cs rest : List Char} {c : Char} (h : scanEscape cs = .ok (c, rest)) :
    rest.length < cs.length := by
  simp only [scanEscape] at h
  split at h
  · cases h
  · have hs := scanGroup_length h
    simp only [List.length_cons]
    omega
  · split at h
    · cases h
      simp
    · cases h

/-! ### Whole strings -/

/-- The rest of a string, behind the characters `read`, which are kept backwards. -/
def scanStringFrom (read : List Char) : Scan String
  | [] => .error (.before [])
  | c :: cs =>
    if c = '"' then .ok (String.ofList read.reverse, cs)
    else if c = '\\' then
      match _h : scanEscape cs with
      | .ok (d, rest) => scanStringFrom (d :: read) rest
      | .error f => .error f
    else if isControl c then .error (.before cs)
    else scanStringFrom (c :: read) cs
termination_by cs => cs.length
decreasing_by
  · have := scanEscape_length _h
    simp only [List.length_cons]
    omega
  · simp

def scanString : Scan String :=
  scanStringFrom []

end Json
end Monomorph
