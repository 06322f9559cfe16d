import Monomorph.Json.Ignored

/-!
# Monomorph.Json.Reader

Readers of typed values. A reader knows how many brackets may still be opened and takes
characters from the front of the text. There are readers for scalars, for values that may be
`null`, for lists, for records (`Reader.record`) and for choices among named variants
(`Reader.choice`).

A record is an object whose members come in any order, among members that are ignored, or a list
of its members in order of declaration. A choice is an object with one member, the variant's
name, or the name alone for a variant without contents.

Faults that show only once a value has been read (a member given twice or missing, a bare name
for a variant with contents) are settled by the next record or list around it: it first tries to
read its closing bracket.
-/

namespace Monomorph
namespace Json

structure Limits where
  /-- How many brackets may still be opened. -/
  depth : Nat
  /-- More items than any list of the text has. -/
  items : Nat

def Reader (α : Type) : Type :=
  Limits → List Char → Except Fault (α × List Char)

namespace Reader

variable {α β : Type}

def value (a : α) : Reader α := fun _ cs =>
  .ok (a, cs)

def andThen (r : Reader α) (f : α → Reader β) : Reader β := fun limits cs =>
  match r limits cs with
  | .error e => .error e
  | .ok (a, rest) => f a limits rest

instance : Monad Reader where
  pure := value
  bind := andThen

theorem bind_apply_ok {r : Reader α} {limits : Limits} {cs rest : List Char} {a : α}
    (h : r limits cs = .ok (a, rest)) (f : α → Reader β) :
    (r >>= f) limits cs = f a limits rest := by
  simp [bind, andThen, h]

def fail : Reader α := fun _ cs =>
  .error (.before cs)

/-- Stops with a fault that the enclosing record or list has to settle. -/
def failUnsettled : Reader α := fun _ cs =>
  .error ⟨cs, false⟩

def scan (s : Scan α) : Reader α := fun _ cs =>
  s cs

/-- The fault of a value of the wrong kind: a scalar is read first, and may be at fault itself. -/
def mismatch (cs : List Char) : Fault :=
  match cs with
  | [] => .before []
  | c :: rest =>
    if c = '[' || c = '\x7b' then .before cs
    else
      let read :=
        if c = '"' then (scanString rest).map Prod.snd else skipScalar cs
      match read with
      | .error f => f
      | .ok rest => .before rest

/-! ## Scalars -/

def null : Reader Unit := fun _ cs =>
  match skipBlanks cs with
  | 'n' :: rest => (word ['u', 'l', 'l'] rest).map fun rest => ((), rest)
  | cs => .error (mismatch cs)

def bool : Reader Bool := fun _ cs =>
  match skipBlanks cs with
  | 't' :: rest => (word ['r', 'u', 'e'] rest).map fun rest => (true, rest)
  | 'f' :: rest => (word ['a', 'l', 's', 'e'] rest).map fun rest => (false, rest)
  | cs => .error (mismatch cs)

def string : Reader String := fun _ cs =>
  match skipBlanks cs with
  | '"' :: rest => scanString rest
  | cs => .error (mismatch cs)

def startsNumber : List Char → Bool
  | [] => false
  | c :: _ => c = '-' || c.isDigit

def number (value? : Number → Option α) : Reader α := fun _ cs =>
  let cs := skipBlanks cs
  if startsNumber cs then
    match scanNumber cs with
    | .error f => .error f
    | .ok (x, rest) =>
      match value? x with
      | some a => .ok (a, rest)
      | none => .error (.before rest)
  else .error (mismatch cs)

def integerWithin? (low high : Int) (x : Number) : Option Int :=
  match x.integer? with
  | some n => if low ≤ n ∧ n ≤ high then some n else none
  | none => none

def signed (bits : Nat) : Reader Int :=
  number (integerWithin? (-(Nat.pow 2 (bits - 1))) (Nat.pow 2 (bits - 1) - 1))

def unsigned (bits : Nat) : Reader Nat :=
  number fun x => (integerWithin? 0 (Nat.pow 2 bits - 1) x).map Int.toNat

/-- Reads a number as a double, as its bits. -/
def double : Reader UInt64 :=
  number Number.bits?

def optional (r : Reader α) : Reader (Option α) := fun limits cs =>
  match skipBlanks cs with
  | 'n' :: rest => (word ['u', 'l', 'l'] rest).map fun rest => (none, rest)
  | cs => (r limits cs).map fun (a, rest) => (some a, rest)

/-! ## Brackets -/

/-- Goes on behind an opening bracket, if one more may be open. -/
def enter (r : Reader α) : Reader α := fun limits cs =>
  match limits.depth with
  | 0 => .error (.before cs)
  | depth + 1 => r { limits with depth := depth } cs

/-- Settles a fault of `r`, which stops where `close` leaves off. -/
def settling (close : List Char → List Char) (r : Reader α) : Reader α := fun limits cs =>
  match r limits cs with
  | .error f => .error (if f.settled then f else .before (close f.rest))
  | .ok found => .ok found

/-- Where the attempt to close a list ends: behind blanks, or a comma with blanks around it. -/
def closeList (cs : List Char) : List Char :=
  match skipBlanks cs with
  | ',' :: rest => skipBlanks rest
  | cs => cs

/-- Where the attempt to close an object ends: behind blanks. -/
def closeObject (cs : List Char) : List Char :=
  skipBlanks cs

def listEnd : Reader Unit := fun _ cs =>
  match skipBlanks cs with
  | ']' :: rest => .ok ((), rest)
  | ',' :: rest => .error (.at (skipBlanks rest))
  | cs => .error (.at cs)

/-- Whether one more item follows in a list. The end itself is not read. -/
def hasItem (first : Bool) : Reader Bool := fun _ cs =>
  match skipBlanks cs with
  | [] => .error (.before [])
  | c :: rest =>
    if c = ']' then .ok (false, c :: rest)
    else if first then .ok (true, c :: rest)
    else if c = ',' then
      match skipBlanks rest with
      | [] => .error (.before [])
      | d :: rest => if d = ']' then .error (.before rest) else .ok (true, d :: rest)
    else .error (.before rest)

/-- The items of a list that has fewer than the given number. -/
def items (r : Reader α) : Nat → Bool → Reader (List α)
  | 0, _ => fail
  | n + 1, first => do
    if ← hasItem first then
      let a ← r
      let rest ← items r n false
      return a :: rest
    else
      return []

def list (r : Reader α) : Reader (List α) := fun limits cs =>
  match skipBlanks cs with
  | '[' :: rest =>
    let body : Reader (List α) := do
      let as ← items r limits.items true
      listEnd
      return as
    enter (settling closeList body) limits rest
  | cs => .error (mismatch cs)

/-! ## Records -/

def colon : Reader Unit := fun _ cs =>
  match skipBlanks cs with
  | ':' :: rest => .ok ((), rest)
  | cs => .error (.at cs)

def ignored : Reader Unit := fun _ cs =>
  (skipValue cs).map fun rest => ((), rest)

/-- Reads a member's name, if there is one more. The end of the object is not read. -/
def memberName (first : Bool) : Reader (Option String) := fun _ cs =>
  match skipBlanks cs with
  | [] => .error (.before [])
  | c :: rest =>
    if c = '\x7d' then .ok (none, c :: rest)
    else
      let start : Except Fault (List Char) :=
        if first then .ok (c :: rest)
        else if c = ',' then .ok (skipBlanks rest)
        else .error (.before rest)
      match start with
      | .error f => .error f
      | .ok ('"' :: rest) => (scanString rest).map fun (name, rest) => (some name, rest)
      | .ok cs => .error (.at cs)

end Reader

structure Member (α : Type) where
  name : String
  reader : Reader α
  /-- The value where the member is missing, unless it has to be there. -/
  absent : Option α

inductive Members : List Type → Type 1 where
  | nil : Members []
  | cons {α : Type} {αs : List Type} (m : Member α) (ms : Members αs) : Members (α :: αs)

def Values : List Type → Type
  | [] => Unit
  | α :: αs => α × Values αs

/-- The values found so far. -/
def Slots : List Type → Type
  | [] => Unit
  | α :: αs => Option α × Slots αs

namespace Members

def noneFound : {αs : List Type} → Members αs → Slots αs
  | _, nil => ()
  | _, cons _ ms => (none, ms.noneFound)

/-- The values of a record; nothing, if one is missing that has to be there. -/
def complete : {αs : List Type} → Members αs → Slots αs → Option (Values αs)
  | _, nil, _ => some ()
  | _, cons m ms, (slot, slots) =>
    match slot.orElse fun _ => m.absent, ms.complete slots with
    | some a, some as => some (a, as)
    | _, _ => none

def finish {αs : List Type} (ms : Members αs) (slots : Slots αs) : Reader (Values αs) :=
  match ms.complete slots with
  | some values => .value values
  | none => .failUnsettled

/-- Reads the colon and the value after the name of a member; nothing, if no member has it. -/
def member? : {αs : List Type} → Members αs → String → Slots αs → Option (Reader (Slots αs))
  | _, nil, _, _ => none
  | _, cons m ms, name, (slot, slots) =>
    if m.name = name then
      match slot with
      | some _ => some .failUnsettled
      | none => some do
        Reader.colon
        let a ← m.reader
        return (some a, slots)
    else
      (ms.member? name slots).map fun r => do
        let slots ← r
        return (slot, slots)

def member {αs : List Type} (ms : Members αs) (name : String) (slots : Slots αs) :
    Reader (Slots αs) :=
  match ms.member? name slots with
  | some r => r
  | none => do
    Reader.colon
    Reader.ignored
    return slots

/-- The members of an object that has fewer than the given number. -/
def inObject {αs : List Type} (ms : Members αs) : Nat → Bool → Slots αs → Reader (Slots αs)
  | 0, _, _ => .fail
  | n + 1, first, slots => do
    match ← Reader.memberName first with
    | none => return slots
    | some name =>
      let slots ← ms.member name slots
      ms.inObject n false slots

/-- The members in a list, in order of declaration, as far as the list goes. -/
def inList : {αs : List Type} → Members αs → Bool → Reader (Slots αs)
  | _, nil, _ => .value ()
  | _, cons m ms, first => do
    if ← Reader.hasItem first then
      let a ← m.reader
      let slots ← ms.inList false
      return (some a, slots)
    else
      return (none, ms.noneFound)

end Members

namespace Reader

def objectEnd : Reader Unit := fun _ cs =>
  match skipBlanks cs with
  | '\x7d' :: rest => .ok ((), rest)
  | cs => .error (.at cs)

def record {αs : List Type} (ms : Members αs) : Reader (Values αs) := fun limits cs =>
  match skipBlanks cs with
  | '\x7b' :: rest =>
    let body : Reader (Values αs) := do
      let slots ← ms.inObject limits.items true ms.noneFound
      let values ← ms.finish slots
      objectEnd
      return values
    enter (settling closeObject body) limits rest
  | '[' :: rest =>
    let body : Reader (Values αs) := do
      let slots ← ms.inList true
      let values ← ms.finish slots
      listEnd
      return values
    enter (settling closeList body) limits rest
  | cs => .error (mismatch cs)

/-! ## Choices -/

/-- The contents of a variant: none at all, or what a reader reads. -/
inductive Variant (α : Type) where
  | bare (a : α)
  | holding (r : Reader α)

/-- The contents in an object; those of a bare variant are `null`. -/
def Variant.contents : Variant α → Reader α
  | bare a => do
    null
    return a
  | holding r => r

def Variant.alone : Variant α → Reader α
  | bare a => value a
  | holding _ => failUnsettled

/-- Reads the name of a variant in an object. Anything but a string is at fault from its first
character on, as it is for the names of members. -/
def variantName : Reader String := fun _ cs =>
  match skipBlanks cs with
  | '"' :: rest => scanString rest
  | cs => .error (.at cs)

def variantNamed (find? : String → Option (Variant α)) (name : String) : Reader (Variant α) :=
  match find? name with
  | some v => value v
  | none => fail

def choiceEnd : Reader Unit := fun _ cs =>
  match skipBlanks cs with
  | '\x7d' :: rest => .ok ((), rest)
  | cs => .error (.before cs)

def choice (find? : String → Option (Variant α)) : Reader α := fun limits cs =>
  match skipBlanks cs with
  | '\x7b' :: rest =>
    let body : Reader α := do
      let name ← variantName
      let v ← variantNamed find? name
      colon
      let a ← v.contents
      choiceEnd
      return a
    enter body limits rest
  | '"' :: rest =>
    let body : Reader α := do
      let name ← scan scanString
      let v ← variantNamed find? name
      v.alone
    body limits rest
  | cs => .error (.at cs)

def named (ofName? : String → Option α) : Reader α :=
  choice fun name => (ofName? name).map .bare

/-! ## Whole texts -/

/-- The line on which reading stopped, counted from 1. -/
def lineOf (text rest : List Char) : Nat :=
  1 + text.count '\n' - rest.count '\n'

def maxDepth : Nat := 127

/-- Reads a text to its end, or answers the line on which it stops making sense. -/
def run (r : Reader α) (text : String) : Except Nat α :=
  let cs := text.toList
  match r ⟨maxDepth, cs.length + 1⟩ cs with
  | .error f => .error (lineOf cs f.rest)
  | .ok (a, rest) =>
    match skipBlanks rest with
    | [] => .ok a
    | _ :: rest => .error (lineOf cs rest)

end Reader
end Json
end Monomorph
