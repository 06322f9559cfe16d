import Monomorph.Proofs.Signature.Shown
import Monomorph.Proofs.Text.Numeral

/-!
# Monomorph.Proofs.Signature.Parts

The parts of a text, a leaf and the marks behind it, can be told from what follows.

* `Leaf.text_append_inj`: a leaf ends where the characters of names end.
* `Mark.text_append_inj`: a mark ends by itself. Brackets end at the first closing one, and
  the commas between them separate the dimensions.
* `Script.Readable`: what a script needs so that texts in it can be read.
-/

namespace Monomorph

open Identifier

theorem isPlain_of_isDigit {c : Char} (h : c.isDigit = true) : isPlain c = true := by
  simp [isPlain, Char.isAlphanum, h]

theorem Stops.of_plain {cs : List Char} (h : Stops isPlain cs) : Stops Char.isDigit cs := by
  intro c hc
  cases hd : c.isDigit with
  | false => rfl
  | true =>
    have hp := h c hc
    rw [isPlain_of_isDigit hd] at hp
    cases hp

section Names

variable {kind : Char → Bool} {s t : String} {u v : List Char}

theorem all_of_isNameOf (h : isNameOf kind s = true) : ∀ c ∈ s.toList, kind c = true := by
  rw [isNameOf, Bool.and_eq_true, List.all_eq_true] at h
  exact h.2

theorem isNameOf_mono {kind' : Char → Bool} (hk : ∀ c, kind c = true → kind' c = true)
    (h : isNameOf kind s = true) : isNameOf kind' s = true := by
  rw [isNameOf, Bool.and_eq_true, List.all_eq_true] at h ⊢
  exact ⟨h.1, fun c hc => hk c (h.2 c hc)⟩

theorem eq_cons_of_isNameOf (h : isNameOf kind s = true) :
    ∃ c cs, s.toList = c :: cs ∧ kind c = true := by
  have hp := all_of_isNameOf h
  cases hs : s.toList with
  | nil =>
    rw [String.toList_eq_nil_iff] at hs
    subst hs
    cases h
  | cons c cs => exact ⟨c, cs, rfl, hp c (by rw [hs]; simp)⟩

/-- A name does not begin with a character of another kind. -/
theorem isNameOf_append_ne (h : isNameOf kind s = true) {c : Char} (hc : kind c = false)
    (u v : List Char) : s.toList ++ u ≠ c :: v :=
  append_ne_of_starts (eq_cons_of_isNameOf h) hc u v

/-- A name ends where the characters of its kind end. -/
theorem isNameOf_append_inj (hs : isNameOf kind s = true) (ht : isNameOf kind t = true)
    (hu : Stops kind u) (hv : Stops kind v) (h : s.toList ++ u = t.toList ++ v) :
    s = t ∧ u = v := by
  obtain ⟨hn, hr⟩ := append_inj_of_stops (all_of_isNameOf hs) (all_of_isNameOf ht) hu hv h
  exact ⟨String.toList_injective hn, hr⟩

/-- A name and the closing parenthesis behind it. -/
theorem name_paren_inj (hs : isName s = true) (ht : isName t = true)
    (h : s.toList ++ ')' :: u = t.toList ++ ')' :: v) : s = t ∧ u = v := by
  obtain ⟨hn, hr⟩ :=
    isNameOf_append_inj hs ht (stops_cons (by decide) u) (stops_cons (by decide) v) h
  exact ⟨hn, (List.cons.inj hr).2⟩

end Names

/-! ## Leaves -/

namespace Leaf

theorem text_append_ne {l : Leaf} (hl : l.Legible) (u v : List Char) : l.text ++ u ≠ '>' :: v := by
  cases l with
  | name s => exact isNameOf_append_ne hl (by decide) u v
  | typeParam owner n =>
    intro h
    cases owner <;> cases (List.cons.inj h).1
  | methodParam n =>
    intro h
    cases (List.cons.inj h).1
  | unsupported e => cases hl

/-- A name does not begin like a parameter. -/
theorem name_append_ne {s : String} (hs : isName s = true) (u v : List Char) :
    s.toList ++ u ≠ '!' :: v :=
  isNameOf_append_ne hs (by decide) u v

theorem decimal_append_ne_cons (n : Nat) {c : Char} (hc : c.isDigit = false) (u v : List Char) :
    (Numeral.decimal n).toList ++ u ≠ c :: v :=
  append_ne_of_starts (Numeral.decimal_eq_cons n) hc u v

theorem text_append_inj {l k : Leaf} {u v : List Char} (hl : l.Legible) (hk : k.Legible)
    (hu : Stops isPlain u) (hv : Stops isPlain v) (h : l.text ++ u = k.text ++ v) :
    l = k ∧ u = v := by
  cases l with
  | name s =>
    cases k with
    | name t =>
      obtain ⟨rfl, hr⟩ := isNameOf_append_inj hl hk hu hv h
      exact ⟨rfl, hr⟩
    | typeParam o n => cases o <;> exact absurd h (name_append_ne hl _ _)
    | methodParam n => exact absurd h (name_append_ne hl _ _)
    | unsupported e => cases hk
  | typeParam o m =>
    cases o with
    | none =>
      cases k with
      | name t => exact absurd h.symm (name_append_ne hk _ _)
      | typeParam p n =>
        cases p with
        | none =>
          obtain ⟨rfl, hr⟩ := Numeral.decimal_append_inj hu.of_plain hv.of_plain
            (List.cons.inj h).2
          exact ⟨rfl, hr⟩
        | some p => exact absurd (List.cons.inj h).2 (decimal_append_ne_cons m (by decide) _ _)
      | methodParam n =>
        exact absurd (List.cons.inj h).2 (decimal_append_ne_cons m (by decide) _ _)
      | unsupported e => cases hk
    | some o =>
      cases k with
      | name t => exact absurd h.symm (name_append_ne hk _ _)
      | typeParam p n =>
        cases p with
        | none =>
          exact absurd (List.cons.inj h).2.symm (decimal_append_ne_cons n (by decide) _ _)
        | some p =>
          have hp : o.toList ++ ')' :: ((Numeral.decimal m).toList ++ u) =
              p.toList ++ ')' :: ((Numeral.decimal n).toList ++ v) := by
            simpa [text] using h
          obtain ⟨rfl, hd⟩ := name_paren_inj hl hk hp
          obtain ⟨rfl, hr⟩ := Numeral.decimal_append_inj hu.of_plain hv.of_plain hd
          exact ⟨rfl, hr⟩
      | methodParam n => cases (List.cons.inj (List.cons.inj h).2).1
      | unsupported e => cases hk
  | methodParam m =>
    cases k with
    | name t => exact absurd h.symm (name_append_ne hk _ _)
    | typeParam p n =>
      cases p with
      | none => exact absurd (List.cons.inj h).2.symm (decimal_append_ne_cons n (by decide) _ _)
      | some p => cases (List.cons.inj (List.cons.inj h).2).1
    | methodParam n =>
      obtain ⟨rfl, hr⟩ := Numeral.decimal_append_inj hu.of_plain hv.of_plain
        (List.cons.inj (List.cons.inj h).2).2
      exact ⟨rfl, hr⟩
    | unsupported e => cases hk
  | unsupported e => cases hl

end Leaf

/-! ## Marks -/

namespace Extent

/-- What stands behind the two dots: the upper bound, or a third dot. -/
def upper (lower : Int) : Option Nat → List Char
  | some n => (Numeral.signed (lower + n - 1)).toList
  | none => ['.']

theorem text_some (lower : Int) (size : Option Nat) :
    text (some (lower, size)) = (Numeral.signed lower).toList ++ '.' :: '.' :: upper lower size := by
  cases size <;> simp [text, dimension, upper]

theorem mem_text {e : Extent} {c : Char} (h : c ∈ e.text) :
    c.isDigit = true ∨ c = '-' ∨ c = '.' := by
  cases e with
  | none => cases h
  | some p =>
    obtain ⟨lower, size⟩ := p
    simp only [text_some, List.mem_append, List.mem_cons] at h
    rcases h with h | h | h | h
    · exact (Numeral.mem_signed h).imp_right .inl
    · exact .inr (.inr h)
    · exact .inr (.inr h)
    · cases size with
      | none => exact .inr (.inr (List.mem_singleton.1 h))
      | some n => exact (Numeral.mem_signed h).imp_right .inl

theorem upper_injective {lower : Int} {m n : Option Nat} (h : upper lower m = upper lower n) :
    m = n := by
  -- a dot is no numeral
  have hdot : ∀ i : Int, (Numeral.signed i).toList ≠ ['.'] := by
    intro i hi
    have hm : '.' ∈ (Numeral.signed i).toList := by rw [hi]; simp
    exact absurd (Numeral.mem_signed hm) (by decide)
  cases m with
  | none =>
    cases n with
    | none => rfl
    | some n => exact absurd h.symm (hdot _)
  | some m =>
    cases n with
    | none => exact absurd h (hdot _)
    | some n =>
      obtain ⟨hb, _⟩ := Numeral.signed_append_inj (stops_nil _) (stops_nil _)
        (congrArg (· ++ []) h)
      have hn : m = n := by omega
      rw [hn]

theorem text_injective {e f : Extent} (h : e.text = f.text) : e = f := by
  cases e with
  | none =>
    cases f with
    | none => rfl
    | some q =>
      rw [text_some] at h
      simp [text] at h
  | some p =>
    obtain ⟨l, m⟩ := p
    rw [text_some] at h
    cases f with
    | none => simp [text] at h
    | some q =>
      obtain ⟨k, n⟩ := q
      rw [text_some] at h
      obtain ⟨rfl, hr⟩ := Numeral.signed_append_inj (stops_cons (by decide) _)
        (stops_cons (by decide) _) h
      rw [upper_injective (List.cons.inj (List.cons.inj hr).2).2]

end Extent

namespace Brackets

theorem comma_not_mem_extents (es : List Extent) : ∀ t ∈ es.map Extent.text, ',' ∉ t := by
  intro t ht hc
  obtain ⟨e, _, rfl⟩ := List.mem_map.1 ht
  exact absurd (Extent.mem_text hc) (by decide)

theorem comma_mem_text {es : List Extent} (h : 2 ≤ es.length) : ',' ∈ (extents es).text := by
  match es, h with
  | e :: f :: rest, _ => simp [text, List.intercalate_cons_cons]

theorem map_text_ne_nil {es : List Extent} (h : 2 ≤ es.length) : es.map Extent.text ≠ [] := by
  intro hn
  rw [List.map_eq_nil_iff.1 hn] at h
  exact absurd h (by decide)

theorem mem_intercalate {c : Char} {ts : List (List Char)} (h : c ∈ [','].intercalate ts) :
    c = ',' ∨ ∃ t ∈ ts, c ∈ t := by
  induction ts with
  | nil => simp at h
  | cons t ts ih =>
    cases ts with
    | nil => exact .inr ⟨t, by simp, by simpa using h⟩
    | cons t' ts =>
      rw [List.intercalate_cons_cons, List.append_assoc, List.mem_append, List.mem_append] at h
      rcases h with h | h | h
      · exact .inr ⟨t, by simp, h⟩
      · exact .inl (List.mem_singleton.1 h)
      · exact (ih h).imp_right fun ⟨s, hs, hc⟩ => ⟨s, by simp [hs], hc⟩

theorem close_not_mem_text (b : Brackets) : ∀ c ∈ b.text, (c != ']') = true := by
  intro c hc
  cases b with
  | zeroBased => cases hc
  | anyBased =>
    rw [List.mem_singleton.1 hc]
    rfl
  | extents es =>
    rcases mem_intercalate hc with rfl | ⟨t, ht, hm⟩
    · rfl
    · obtain ⟨e, _, rfl⟩ := List.mem_map.1 ht
      rcases Extent.mem_text hm with h | rfl | rfl
      · cases hb : c != ']' with
        | true => rfl
        | false =>
          rw [bne_eq_false_iff_eq] at hb
          subst hb
          cases h
      · rfl
      · rfl

theorem text_injective {b d : Brackets} (hb : (Mark.array b).Legible) (hd : (Mark.array d).Legible)
    (h : b.text = d.text) : b = d := by
  cases b with
  | zeroBased =>
    cases d with
    | zeroBased => rfl
    | anyBased => cases h
    | extents es =>
      have hc := comma_mem_text hd
      rw [← h] at hc
      cases hc
  | anyBased =>
    cases d with
    | zeroBased => cases h
    | anyBased => rfl
    | extents es =>
      have hc := comma_mem_text hd
      rw [← h] at hc
      exact absurd hc (by decide)
  | extents es =>
    have hc := comma_mem_text hb
    cases d with
    | zeroBased =>
      rw [h] at hc
      cases hc
    | anyBased =>
      rw [h] at hc
      exact absurd hc (by decide)
    | extents fs =>
      have ht := congrArg (List.splitOn ',') h
      rw [text, text, List.splitOn_intercalate _ (comma_not_mem_extents es) (map_text_ne_nil hb),
        List.splitOn_intercalate _ (comma_not_mem_extents fs) (map_text_ne_nil hd)] at ht
      exact congrArg extents ((List.map_inj_right fun _ _ => Extent.text_injective).1 ht)

end Brackets

namespace Mark

/-- No mark begins with a character of an argument list or opens a parameter list. -/
theorem text_append_ne (m : Mark) {c : Char} (hc : c ∈ ['<', ',', '>', '(']) (u v : List Char) :
    m.text ++ u ≠ c :: v := by
  simp only [List.mem_cons, List.not_mem_nil, or_false] at hc
  rcases hc with rfl | rfl | rfl | rfl <;> cases m <;> intro h <;> cases (List.cons.inj h).1

theorem stops_text (m : Mark) (u : List Char) : Stops isPlain (m.text ++ u) := by
  cases m <;> exact stops_cons (by decide) _

theorem text_ne_nil (m : Mark) (u : List Char) : m.text ++ u ≠ [] := by
  cases m <;> exact List.cons_ne_nil _ _

theorem text_append_inj {m n : Mark} {u v : List Char} (hm : m.Legible) (hn : n.Legible)
    (h : m.text ++ u = n.text ++ v) : m = n ∧ u = v := by
  cases m <;> cases n
  case ptr.ptr => exact ⟨rfl, (List.cons.inj h).2⟩
  case byRef.byRef => exact ⟨rfl, (List.cons.inj h).2⟩
  case array.array b d =>
    have hb : b.text ++ ']' :: u = d.text ++ ']' :: v := by
      simpa [text] using h
    obtain ⟨ht, hr⟩ := append_inj_of_stops b.close_not_mem_text d.close_not_mem_text
      (stops_cons (by decide) _) (stops_cons (by decide) _) hb
    exact ⟨congrArg array (Brackets.text_injective hm hn ht), (List.cons.inj hr).2⟩
  case modReqd.modReqd s t =>
    have hs : s.toList ++ ')' :: u = t.toList ++ ')' :: v := by
      simpa [text] using h
    obtain ⟨rfl, hr⟩ := name_paren_inj hm hn hs
    exact ⟨rfl, hr⟩
  case modOpt.modOpt s t =>
    have hs : s.toList ++ ')' :: u = t.toList ++ ')' :: v := by
      simpa [text] using h
    obtain ⟨rfl, hr⟩ := name_paren_inj hm hn hs
    exact ⟨rfl, hr⟩
  -- the other pairs differ in the first character, or two modifiers in the fifth
  all_goals
    exfalso
    simp [text] at h

end Mark

/-! ## Scripts -/

/-- The parts of a text in the script can be told from what follows. -/
structure Script.Readable (S : Script) : Prop where
  leaf_append_inj {l k : Leaf} {u v : List Char} : S.leaf l → S.leaf k → Stops S.nameChar u →
    Stops S.nameChar v → l.text ++ u = k.text ++ v → l = k ∧ u = v
  leaf_append_ne {l : Leaf} : S.leaf l → ∀ u v, l.text ++ u ≠ '>' :: v
  legible_mark {m : Mark} : S.mark m → m.Legible
  stops_mark {m : Mark} : S.mark m → ∀ u, Stops S.nameChar (m.text ++ u)
  delimiter {c : Char} : c ∈ ['<', ',', '>'] → S.nameChar c = false

theorem Script.plain_readable : Script.plain.Readable where
  leaf_append_inj := Leaf.text_append_inj
  leaf_append_ne := Leaf.text_append_ne
  legible_mark := id
  stops_mark _ := Mark.stops_text _
  delimiter hc := by
    simp only [List.mem_cons, List.not_mem_nil, or_false] at hc
    rcases hc with rfl | rfl | rfl <;> rfl

end Monomorph
