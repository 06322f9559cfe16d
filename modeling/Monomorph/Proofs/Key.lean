import Monomorph.Key
import Monomorph.Proofs.Signature.Rendering
import Monomorph.Proofs.Text.Identifier

/-!
# Monomorph.Proofs.Key

Reading keys back, whatever text the types in them have. A key begins with an escaped name, and
what stands behind it begins with a delimiter, which no escaped name contains; the key of a method
ends with flag words, and no hexadecimal digit is a delimiter. So a key is read from both ends, and
what is left in the middle is the text of its types.

* `framed_injective`: name, text and flag words can be told from each other.
* `ofType_eq_ok_iff`, `ofField_eq_ok_iff`: which types and which fields have a given key.

Writing keys. The key of a method can be written iff all signatures in it can
(`exists_ofMethod_iff`, `exists_ofDeclaration_iff`).
-/

namespace Monomorph
namespace Key

open Identifier (escapeChars isEscaped)

/-! ## The frame of a key -/

/-- An escaped name can be told from what stands behind it. -/
theorem escaped_append_inj {name name' : String} {rest rest' : List Char}
    (hr : Stops isEscaped rest) (hr' : Stops isEscaped rest')
    (h : escapeChars name.toList ++ rest = escapeChars name'.toList ++ rest') :
    name = name' ∧ rest = rest' := by
  obtain ⟨hname, hrest⟩ := append_inj_of_stops (fun _ => Identifier.mem_escapeChars)
    (fun _ => Identifier.mem_escapeChars) hr hr' h
  exact ⟨String.toList_injective (Identifier.escapeChars_injective hname), hrest⟩

/-- Flag words in hexadecimal digits, each behind a bar. -/
def flagsText (flags : List Nat) : List Char :=
  flags.flatMap fun flag => '|' :: (Numeral.hex flag).toList

theorem append_flagsText_inj {text text' : List Char} {flags flags' : List Nat}
    (hlen : flags.length = flags'.length)
    (h : text ++ flagsText flags = text' ++ flagsText flags') : text = text' ∧ flags = flags' := by
  -- the words behind the first are read before it, so the first joins the text
  induction flags generalizing flags' text text' with
  | nil =>
    rw [List.eq_nil_of_length_eq_zero hlen.symm] at h ⊢
    exact ⟨List.append_cancel_right h, rfl⟩
  | cons flag flags ih =>
    cases flags' with
    | nil => cases hlen
    | cons flag' flags' =>
      simp only [flagsText, List.flatMap_cons, ← List.append_assoc] at h
      obtain ⟨hfirst, rfl⟩ := ih (Nat.succ.inj hlen) h
      obtain ⟨htext, rfl⟩ := Numeral.append_hex_inj hfirst
      exact ⟨htext, rfl⟩

/-- An escaped name, a text behind a bar, and flag words. -/
def framed (name : String) (text : List Char) (flags : List Nat) : List Char :=
  escapeChars name.toList ++ '|' :: (text ++ flagsText flags)

/-- The text may contain any characters, bars and digits included. -/
theorem framed_injective {name name' : String} {text text' : List Char} {flags flags' : List Nat}
    (h : framed name text flags = framed name' text' flags')
    (hlen : flags.length = flags'.length) :
    name = name' ∧ text = text' ∧ flags = flags' := by
  obtain ⟨hname, hrest⟩ :=
    escaped_append_inj (stops_cons (by decide) _) (stops_cons (by decide) _) h
  exact ⟨hname, append_flagsText_inj hlen (List.cons.inj hrest).2⟩

/-! ## Types and fields -/

/-- What stands behind the name in the key of a type. -/
def argsTail : List Sig → List Char → List Char
  | [], _ => []
  | _, text => '<' :: (text ++ ['>'])

theorem stops_argsTail (args : List Sig) (text : List Char) :
    Stops isEscaped (argsTail args text) := by
  cases args with
  | nil => exact stops_nil _
  | cons => exact stops_cons (by decide) _

theorem toList_ofType {name : String} {args : List Sig} {key : String}
    (h : ofType name args = .ok key) : ∃ text, Sig.renderList true args = .ok text ∧
      key.toList = escapeChars name.toList ++ argsTail args text.toList := by
  cases args with
  | nil =>
    cases h
    exact ⟨"", rfl, by rw [Identifier.toList_escape, argsTail, List.append_nil]⟩
  | cons arg args =>
    obtain ⟨text, ht, rfl⟩ := exists_of_map_ok h
    refine ⟨text, ht, ?_⟩
    simp [argsTail, Identifier.toList_escape]

/-- The key of a type is the key of all types that have its name and the same text of arguments,
unless one has arguments and the other has none. -/
theorem ofType_eq_ok_iff {name name' : String} {args args' : List Sig} {key : String}
    (h : ofType name args = .ok key) : ofType name' args' = .ok key ↔
      name' = name ∧ (args' = [] ↔ args = []) ∧
        Sig.renderList true args' = Sig.renderList true args := by
  constructor
  · intro h'
    obtain ⟨text, ht, hk⟩ := toList_ofType h
    obtain ⟨text', ht', hk'⟩ := toList_ofType h'
    obtain ⟨hname, htail⟩ := escaped_append_inj (stops_argsTail _ _) (stops_argsTail _ _)
      (hk'.symm.trans hk)
    refine ⟨hname, ?_⟩
    cases args with
    | nil =>
      cases args' with
      | nil => exact ⟨Iff.rfl, rfl⟩
      | cons => cases htail
    | cons =>
      cases args' with
      | nil => cases htail
      | cons =>
        have htext := List.append_cancel_right (List.cons.inj htail).2
        rw [ht, ht', String.toList_injective htext]
        simp
  · rintro ⟨rfl, hempty, htext⟩
    cases args' with
    | nil => rwa [hempty.1 rfl] at h
    | cons =>
      cases args with
      | nil => cases hempty.2 rfl
      | cons =>
        show Except.map _ (Sig.renderList true _) = _
        rw [htext]
        exact h

/-- Types with the same key have the same name, whatever their arguments are. -/
theorem name_of_ofType {name name' : String} {args args' : List Sig} {key : String}
    (h : ofType name args = .ok key) (h' : ofType name' args' = .ok key) : name = name' :=
  ((ofType_eq_ok_iff h').1 h).1

theorem toList_ofField {name : String} {type : Sig} {key : String}
    (h : ofField name type = .ok key) :
    ∃ text, type.render false = .ok text ∧ key.toList = framed name text.toList [] := by
  obtain ⟨text, ht, rfl⟩ := exists_of_map_ok h
  refine ⟨text, ht, ?_⟩
  simp [framed, flagsText, Identifier.toList_escape]

/-- The key of a field is the key of all fields that have its name and a type of the same text. -/
theorem ofField_eq_ok_iff {name name' : String} {type type' : Sig} {key : String}
    (h : ofField name type = .ok key) : ofField name' type' = .ok key ↔
      name' = name ∧ type'.render false = type.render false := by
  constructor
  · intro h'
    obtain ⟨text, ht, hk⟩ := toList_ofField h
    obtain ⟨text', ht', hk'⟩ := toList_ofField h'
    obtain ⟨hname, htext, _⟩ := framed_injective (hk'.symm.trans hk) rfl
    rw [ht, ht', String.toList_injective htext]
    exact ⟨hname, rfl⟩
  · rintro ⟨rfl, htext⟩
    rwa [ofField, htext]

/-- Fields with the same key have the same name. -/
theorem name_of_ofField {name name' : String} {type type' : Sig} {key : String}
    (h : ofField name type = .ok key) (h' : ofField name' type' = .ok key) : name = name' :=
  ((ofField_eq_ok_iff h').1 h).1

/-! ## Writing -/

section Writing

variable {name : String} {args params : List Sig} {ret : Sig} {callConv : CallConv} {count : Nat}

theorem exists_signatureTail_iff :
    (∃ x, signatureTail params callConv = .ok x) ↔ ∀ p ∈ params, p.HasText false := by
  simp only [signatureTail, exists_map_ok_iff, Sig.exists_renderList_iff]

theorem exists_methodArgs_iff :
    (∃ x, methodArgs args = .ok x) ↔ ∀ a ∈ args, a.HasText false := by
  cases args with
  | nil => simp [methodArgs]
  | cons a args => simp only [methodArgs, exists_map_ok_iff, Sig.exists_renderList_iff]

theorem exists_ofType_iff :
    (∃ key, ofType name args = .ok key) ↔ ∀ a ∈ args, a.HasText true := by
  cases args with
  | nil => simp [ofType]
  | cons a args => simp only [ofType, exists_map_ok_iff, Sig.exists_renderList_iff]

theorem exists_ofMethod_iff : (∃ key, ofMethod name args ret params callConv = .ok key) ↔
    ret.HasText false ∧ (∀ a ∈ args, a.HasText false) ∧ ∀ p ∈ params, p.HasText false := by
  simp [ofMethod, exists_bind_ok_iff, exists_methodArgs_iff, exists_signatureTail_iff,
    Sig.HasText, pure, Except.pure]

theorem exists_ofDeclaration_iff : (∃ key, ofDeclaration name count ret params callConv = .ok key) ↔
    ret.HasText false ∧ ∀ p ∈ params, p.HasText false := by
  simp [ofDeclaration, exists_bind_ok_iff, exists_signatureTail_iff, Sig.HasText, pure,
    Except.pure]

end Writing

end Key
end Monomorph
