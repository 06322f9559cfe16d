import Monomorph.Proofs.Json.Syntax

/-!
# Monomorph.Proofs.Json.Spelling

What values of a type look like in JSON. A spelling is a predicate on values, and says nothing of
how they are read.

* `Spells.string`, `Spells.unsigned`, `Spells.signed`, `Spells.bool`, `Spells.list`: scalars and
  lists.
* `Spells.variant`: a variant with contents is an object with one member, its name.
* `Spells.object`: a record is an object. What is said of its members does not depend on their
  order, nor on members of other names.
* `Spells.given`, `Spells.defaulted`, `Spells.optional`: a member that has to be there, one that may
  be missing where it equals its default, and one that may be missing or `null`.
-/

namespace Monomorph
namespace Json

/-- The members of an object, with what their names denote. -/
def Named (members : List (Literal × Value)) (xs : List (String × Value)) : Prop :=
  List.Forall₂ (fun m x => m.1.Denotes x.1.toList ∧ m.2 = x.2) members xs

namespace Spells

variable {α : Type}

def string (s : String) (v : Value) : Prop :=
  ∃ l : Literal, l.Denotes s.toList ∧ v = .string l

def bool (b : Bool) (v : Value) : Prop :=
  v = .bool b

/-- An integer of that many bits, without sign. -/
def unsigned (bits n : Nat) (v : Value) : Prop :=
  n < Nat.pow 2 bits ∧ v = .number (.ofInt n)

/-- An integer of that many bits, one of them for the sign. -/
def signed (bits : Nat) (n : Int) (v : Value) : Prop :=
  (-(Nat.pow 2 (bits - 1)) ≤ n ∧ n < Nat.pow 2 (bits - 1)) ∧ v = .number (.ofInt n)

/-- A list, by the spellings of its items. -/
def list (ps : List (Value → Prop)) (v : Value) : Prop :=
  ∃ vs : List Value, List.Forall₂ (fun p w => p w) ps vs ∧ v = .array vs

def orNull (spells : α → Value → Prop) : Option α → Value → Prop
  | none, v => v = .null
  | some a, v => spells a v

/-- A variant of that name, by the spelling of its contents. -/
def variant (name : String) (p : Value → Prop) (v : Value) : Prop :=
  ∃ (l : Literal) (w : Value), l.Denotes name.toList ∧ p w ∧ v = .object [(l, w)]

def object (p : List (String × Value) → Prop) (v : Value) : Prop :=
  ∃ (members : List (Literal × Value)) (xs : List (String × Value)),
    Named members xs ∧ p xs ∧ v = .object members

/-! ## Members -/

/-- The member is there once. -/
def given (name : String) (p : Value → Prop) (xs : List (String × Value)) : Prop :=
  ∃ v, xs.filter (·.1 == name) = [(name, v)] ∧ p v

def omitted (name : String) (xs : List (String × Value)) : Prop :=
  xs.filter (·.1 == name) = []

def defaulted (name : String) (default a : α) (p : Value → Prop)
    (xs : List (String × Value)) : Prop :=
  given name p xs ∨ a = default ∧ omitted name xs

def optional (name : String) (spells : α → Value → Prop) (a : Option α)
    (xs : List (String × Value)) : Prop :=
  defaulted name none a (orNull spells a) xs

/-- A list that may be missing where it is empty. -/
def listed (name : String) (spells : α → Value → Prop) (as : List α)
    (xs : List (String × Value)) : Prop :=
  defaulted name [] as (list (as.map spells)) xs

theorem defaulted.map {β : Type} {name : String} {default a : α} {p : Value → Prop}
    {xs : List (String × Value)} (h : defaulted name default a p xs) (f : α → β) :
    defaulted name (f default) (f a) p xs :=
  h.imp_right (And.imp_left (congrArg f))

/-! ## Nothing but absence is spelled `null` -/

theorem not_string_null (s : String) : ¬ string s .null := by
  rintro ⟨l, _, h⟩
  cases h

theorem not_unsigned_null (bits n : Nat) : ¬ unsigned bits n .null := by
  rintro ⟨_, h⟩
  cases h

theorem not_list_null (ps : List (Value → Prop)) : ¬ list ps .null := by
  rintro ⟨vs, _, h⟩
  cases h

theorem not_variant_null (name : String) (p : Value → Prop) : ¬ variant name p .null := by
  rintro ⟨l, w, _, _, h⟩
  cases h

theorem not_object_null (p : List (String × Value) → Prop) : ¬ object p .null := by
  rintro ⟨members, xs, _, _, h⟩
  cases h

end Spells
end Json
end Monomorph
