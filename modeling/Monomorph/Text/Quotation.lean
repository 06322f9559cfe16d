import Monomorph.Text.Numeral

/-!
# Monomorph.Text.Quotation

Paths in messages, between quotation marks. A backslash stands before quotation marks and before
another backslash, and characters that are not shown are written in letters: a few that are common
by one letter, the others by their number. So a quoted path never breaks the line it is on
(`isHidden_of_mem_quote`).

Combining marks and numbers that belong to no character are written as they are; which ones these
are is not the same in all versions of Unicode.
-/

namespace Monomorph
namespace Quotation

/-- Controls, separators save the blank, formats, and characters for private use. -/
def hiddenRanges : List (Nat × Nat) :=
  [(0x0, 0x1F), (0x7F, 0xA0), (0xAD, 0xAD), (0x600, 0x605), (0x61C, 0x61C), (0x6DD, 0x6DD),
    (0x70F, 0x70F), (0x890, 0x891), (0x8E2, 0x8E2), (0x1680, 0x1680), (0x180E, 0x180E),
    (0x2000, 0x200F), (0x2028, 0x202F), (0x205F, 0x2064), (0x2066, 0x206F), (0x3000, 0x3000),
    (0xE000, 0xF8FF), (0xFEFF, 0xFEFF), (0xFFF9, 0xFFFB), (0x110BD, 0x110BD), (0x110CD, 0x110CD),
    (0x13430, 0x1343F), (0x1BCA0, 0x1BCA3), (0x1D173, 0x1D17A), (0xE0001, 0xE0001),
    (0xE0020, 0xE007F), (0xF0000, 0xFFFFD), (0x100000, 0x10FFFD)]

def isHidden (c : Char) : Bool :=
  hiddenRanges.any fun (first, last) => first ≤ c.toNat && c.toNat ≤ last

/-- The number of a character in braces; its hexadecimal digits are lower-case. -/
def numberText (c : Char) : List Char :=
  '\\' :: 'u' :: '\x7b' :: (Nat.toDigits 16 c.toNat ++ ['\x7d'])

/-- The characters that are written as one letter or sign behind a backslash. -/
def shortTexts : List (Char × Char) :=
  [('\x00', '0'), ('\t', 't'), ('\r', 'r'), ('\n', 'n'), ('"', '"'), ('\x27', '\x27'),
    ('\\', '\\')]

def charText (c : Char) : List Char :=
  match shortTexts.lookup c with
  | some d => ['\\', d]
  | none => if isHidden c then numberText c else [c]

def quote (s : String) : String :=
  "\"" ++ String.ofList (s.toList.flatMap charText) ++ "\""

theorem isHidden_of_mem_numberText {c d : Char} (h : d ∈ numberText c) : isHidden d = false := by
  have hdigit : ∀ n < 16, isHidden (Nat.digitChar n) = false := by decide
  simp only [numberText, List.mem_cons, List.mem_append, List.not_mem_nil, or_false] at h
  rcases h with rfl | rfl | rfl | h | rfl
  · rfl
  · rfl
  · rfl
  · obtain ⟨n, hn, rfl⟩ := Numeral.mem_toDigits h
    exact hdigit n hn
  · rfl

theorem isHidden_of_mem_charText {c d : Char} (h : d ∈ charText c) : isHidden d = false := by
  have hshort : ∀ p ∈ shortTexts, isHidden p.2 = false := by decide
  rw [charText] at h
  split at h
  · rename_i e hc
    obtain ⟨before, after, hp, _⟩ := List.lookup_eq_some_iff.1 hc
    have he := hshort (c, e) (by simp [hp])
    simp only [List.mem_cons, List.not_mem_nil, or_false] at h
    rcases h with rfl | rfl
    · rfl
    · exact he
  · cases hc : isHidden c with
    | true =>
      rw [hc] at h
      exact isHidden_of_mem_numberText h
    | false =>
      rw [hc] at h
      rw [List.mem_singleton.1 h, hc]

theorem isHidden_of_mem_quote {s : String} {c : Char} (h : c ∈ (quote s).toList) :
    isHidden c = false := by
  simp only [quote, String.toList_append, String.toList_ofList, List.mem_append] at h
  rcases h with (h | h) | h
  · rw [List.mem_singleton.1 h]
    rfl
  · obtain ⟨d, _, hd⟩ := List.mem_flatMap.1 h
    exact isHidden_of_mem_charText hd
  · rw [List.mem_singleton.1 h]
    rfl

example : "a\tb\x27c\u00A0".toList.flatMap charText = "a\\tb\\\x27c\\u\x7ba0\x7d".toList := by
  decide

end Quotation
end Monomorph
