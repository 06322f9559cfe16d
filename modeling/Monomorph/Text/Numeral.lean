/-!
# Monomorph.Text.Numeral

Numbers as text: decimal numerals, signed decimal numerals, and upper-case hexadecimal numerals,
either as short as possible or four digits wide.
-/

namespace Monomorph
namespace Numeral

/-- The decimal numeral of a number, without leading zeros. -/
def decimal (n : Nat) : String :=
  String.ofList (Nat.toDigits 10 n)

def signed : Int → String
  | .ofNat n => decimal n
  | .negSucc n => "-" ++ decimal (n + 1)

/-- The hexadecimal digit of a value below sixteen; letters are upper-case. -/
def hexDigit (n : Nat) : Char :=
  (Nat.digitChar n).toUpper

def hex (n : Nat) : String :=
  String.ofList ((Nat.toDigits 16 n).map Char.toUpper)

theorem mem_toDigits {n : Nat} {c : Char} (h : c ∈ Nat.toDigits 16 n) :
    ∃ d < 16, c = Nat.digitChar d := by
  induction n using Nat.strongRecOn with
  | ind n ih =>
    by_cases hn : n < 16
    · rw [Nat.toDigits_of_lt_base hn, List.mem_singleton] at h
      exact ⟨n, hn, h⟩
    · rw [Nat.toDigits_of_base_le (by omega) (by omega), List.mem_append, List.mem_singleton] at h
      rcases h with h | h
      · exact ih (n / 16) (by omega) h
      · exact ⟨n % 16, by omega, h⟩

theorem hex_of_lt {n : Nat} (h : n < 16) : hex n = String.ofList [hexDigit n] := by
  simp [hex, hexDigit, Nat.toDigits_of_lt_base h]

/-- The last four hexadecimal digits of a number, padded with zeros. -/
def fourHexDigits (n : Nat) : List Char :=
  [hexDigit (n / 4096 % 16), hexDigit (n / 256 % 16), hexDigit (n / 16 % 16), hexDigit (n % 16)]

@[simp] theorem fourHexDigits_length (n : Nat) : (fourHexDigits n).length = 4 := rfl

end Numeral
end Monomorph
