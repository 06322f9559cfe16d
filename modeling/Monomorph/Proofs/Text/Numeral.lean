import Monomorph.Text.Numeral

/-!
# Monomorph.Proofs.Text.Numeral

Reading text back up to a delimiter.

* `append_inj_of_stops`: characters of a class, followed by text that begins outside of it, can be
  told from what follows.
* `Numeral.decimal_append_inj`, `Numeral.signed_append_inj`: so can numerals, and they determine
  their numbers.
* `Numeral.append_hex_inj`: a hexadecimal numeral at the end of a text can be told from what stands
  before a delimiter in front of it.
-/

namespace Monomorph

/-- The text begins with no character of the class; it may be empty. -/
def Stops (p : Char → Bool) (cs : List Char) : Prop :=
  ∀ c ∈ cs.head?, p c = false

theorem stops_nil (p : Char → Bool) : Stops p [] := by
  intro c hc
  cases hc

theorem stops_cons {p : Char → Bool} {c : Char} (h : p c = false) (cs : List Char) :
    Stops p (c :: cs) := by
  intro d hd
  cases hd
  exact h

theorem Stops.head {p : Char → Bool} {c : Char} {cs : List Char} (h : Stops p (c :: cs)) :
    p c = false :=
  h c rfl

theorem append_inj_of_stops {p : Char → Bool} {xs ys us vs : List Char}
    (hx : ∀ c ∈ xs, p c = true) (hy : ∀ c ∈ ys, p c = true) (hu : Stops p us) (hv : Stops p vs)
    (h : xs ++ us = ys ++ vs) : xs = ys ∧ us = vs := by
  induction xs generalizing ys with
  | nil =>
    cases ys with
    | nil => exact ⟨rfl, h⟩
    | cons y ys =>
      rw [List.nil_append] at h
      rw [h] at hu
      have hp : p y = true := hy y (by simp)
      rw [hu.head] at hp
      cases hp
  | cons x xs ih =>
    cases ys with
    | nil =>
      rw [List.nil_append] at h
      rw [← h] at hv
      have hp : p x = true := hx x (by simp)
      rw [hv.head] at hp
      cases hp
    | cons y ys =>
      obtain ⟨rfl, ht⟩ := List.cons.inj h
      obtain ⟨rfl, hr⟩ := ih (fun c hc => hx c (by simp [hc])) (fun c hc => hy c (by simp [hc])) ht
      exact ⟨rfl, hr⟩

/-- A text that begins in the class does not begin with a character outside of it. -/
theorem append_ne_of_starts {p : Char → Bool} {xs : List Char}
    (hx : ∃ x rest, xs = x :: rest ∧ p x = true) {c : Char} (hc : p c = false)
    (us vs : List Char) : xs ++ us ≠ c :: vs := by
  intro h
  obtain ⟨x, rest, rfl, hp⟩ := hx
  obtain ⟨rfl, _⟩ := List.cons.inj h
  rw [hc] at hp
  cases hp

namespace Numeral

theorem toList_decimal (n : Nat) : (decimal n).toList = Nat.toDigits 10 n := by
  simp [decimal]

theorem isDigit_of_mem_decimal {n : Nat} {c : Char} (h : c ∈ (decimal n).toList) :
    c.isDigit = true := by
  rw [toList_decimal] at h
  exact Nat.isDigit_of_mem_toDigits (by omega) (by omega) h

theorem decimal_injective {m n : Nat} (h : (decimal m).toList = (decimal n).toList) : m = n := by
  simp only [toList_decimal] at h
  have hn := congrArg (fun ds => Nat.ofDigitChars 10 ds 0) h
  simpa using hn

theorem decimal_append_inj {m n : Nat} {u v : List Char} (hu : Stops Char.isDigit u)
    (hv : Stops Char.isDigit v) (h : (decimal m).toList ++ u = (decimal n).toList ++ v) :
    m = n ∧ u = v := by
  obtain ⟨hd, hr⟩ := append_inj_of_stops (fun c => isDigit_of_mem_decimal)
    (fun c => isDigit_of_mem_decimal) hu hv h
  exact ⟨decimal_injective hd, hr⟩

theorem decimal_eq_cons (n : Nat) :
    ∃ c cs, (decimal n).toList = c :: cs ∧ c.isDigit = true := by
  cases h : (decimal n).toList with
  | nil =>
    rw [toList_decimal] at h
    exact absurd h Nat.toDigits_ne_nil
  | cons c cs => exact ⟨c, cs, rfl, isDigit_of_mem_decimal (by rw [h]; simp)⟩

theorem toList_signed_negSucc (n : Nat) :
    (signed (.negSucc n)).toList = '-' :: (decimal (n + 1)).toList := by
  simp [signed]

/-- A numeral that starts with a digit is not one that starts with a minus sign. -/
theorem decimal_append_ne (m n : Nat) (u v : List Char) :
    (decimal m).toList ++ u ≠ (signed (.negSucc n)).toList ++ v := by
  rw [toList_signed_negSucc]
  exact append_ne_of_starts (decimal_eq_cons m) (by decide) u _

theorem signed_append_inj {i j : Int} {u v : List Char} (hu : Stops Char.isDigit u)
    (hv : Stops Char.isDigit v) (h : (signed i).toList ++ u = (signed j).toList ++ v) :
    i = j ∧ u = v := by
  cases i with
  | ofNat m =>
    cases j with
    | ofNat n =>
      obtain ⟨rfl, hr⟩ := decimal_append_inj hu hv h
      exact ⟨rfl, hr⟩
    | negSucc n => exact absurd h (decimal_append_ne m n u v)
  | negSucc m =>
    cases j with
    | ofNat n => exact absurd h.symm (decimal_append_ne n m v u)
    | negSucc n =>
      simp only [toList_signed_negSucc, List.cons_append] at h
      obtain ⟨hn, hr⟩ := decimal_append_inj hu hv (List.cons.inj h).2
      exact ⟨by omega, hr⟩

theorem mem_signed {i : Int} {c : Char} (h : c ∈ (signed i).toList) :
    c.isDigit = true ∨ c = '-' := by
  cases i with
  | ofNat n => exact .inl (isDigit_of_mem_decimal h)
  | negSucc n =>
    rw [toList_signed_negSucc, List.mem_cons] at h
    rcases h with rfl | h
    · exact .inr rfl
    · exact .inl (isDigit_of_mem_decimal h)

/-! ## Hexadecimal numerals -/

theorem toList_hex_of_lt {n : Nat} (h : n < 16) : (hex n).toList = [hexDigit n] := by
  rw [hex_of_lt h, String.toList_ofList]

theorem toList_hex_of_le {n : Nat} (h : 16 ≤ n) :
    (hex n).toList = (hex (n / 16)).toList ++ [hexDigit (n % 16)] := by
  simp [hex, hexDigit, Nat.toDigits_of_base_le (by omega) h]

theorem hexDigit_injective : ∀ m < 16, ∀ n < 16, hexDigit m = hexDigit n → m = n := by
  decide

theorem mem_hex {n : Nat} {c : Char} (h : c ∈ (hex n).toList) : ∃ d < 16, c = hexDigit d := by
  rw [hex, String.toList_ofList] at h
  obtain ⟨x, hx, rfl⟩ := List.mem_map.1 h
  obtain ⟨d, hd, rfl⟩ := mem_toDigits hx
  exact ⟨d, hd, rfl⟩

theorem hex_ne_nil (n : Nat) : (hex n).toList ≠ [] := by
  by_cases hn : n < 16
  · rw [toList_hex_of_lt hn]
    exact List.cons_ne_nil _ _
  · rw [toList_hex_of_le (by omega)]
    exact List.concat_ne_nil _ _

theorem hex_injective {m n : Nat} (h : (hex m).toList = (hex n).toList) : m = n := by
  induction m using Nat.strongRecOn generalizing n with
  | ind m ih =>
    -- a numeral of one digit is not one of more
    have hone {k l : Nat} (hk : k < 16) (hl : 16 ≤ l) : (hex k).toList ≠ (hex l).toList := by
      intro he
      rw [toList_hex_of_lt hk, toList_hex_of_le hl] at he
      have hlen := congrArg List.length he
      have hpos := List.length_pos_iff.2 (hex_ne_nil (l / 16))
      simp only [List.length_append, List.length_singleton] at hlen
      omega
    by_cases hm : m < 16
    · by_cases hn : n < 16
      · rw [toList_hex_of_lt hm, toList_hex_of_lt hn] at h
        exact hexDigit_injective m hm n hn (List.cons.inj h).1
      · exact absurd h (hone hm (by omega))
    · by_cases hn : n < 16
      · exact absurd h.symm (hone hn (by omega))
      · rw [toList_hex_of_le (by omega), toList_hex_of_le (n := n) (by omega)] at h
        obtain ⟨hq, hr⟩ := List.append_inj' h rfl
        have hq := ih (m / 16) (by omega) hq
        have hr := hexDigit_injective _ (by omega) _ (by omega) (List.cons.inj hr).1
        omega

/-- The numeral behind the last delimiter of a text. -/
theorem append_hex_inj {m n : Nat} {u v : List Char}
    (h : u ++ '|' :: (hex m).toList = v ++ '|' :: (hex n).toList) : u = v ∧ m = n := by
  have hdelim : ∀ d < 16, (hexDigit d != '|') = true := by decide
  have hclass {k : Nat} : ∀ c ∈ (hex k).toList.reverse, (c != '|') = true := by
    intro c hc
    obtain ⟨d, hd, rfl⟩ := mem_hex (List.mem_reverse.1 hc)
    exact hdelim d hd
  have hrev := congrArg List.reverse h
  simp only [List.reverse_append, List.reverse_cons, List.append_assoc, List.singleton_append]
    at hrev
  obtain ⟨hd, hr⟩ := append_inj_of_stops hclass hclass (stops_cons (by decide) _)
    (stops_cons (by decide) _) hrev
  exact ⟨List.reverse_inj.1 (List.cons.inj hr).2, hex_injective (List.reverse_inj.1 hd)⟩

end Numeral
end Monomorph
