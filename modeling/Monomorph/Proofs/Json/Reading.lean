import Monomorph.Json.Reader
import Monomorph.Proofs.Json.Ignored
import Monomorph.Proofs.Json.Spelling

/-!
# Monomorph.Proofs.Json.Reading

What readers find where a value is written.

* `Reader.Reads`: a reader finds something in a value, whatever the blanks and what follows, unless
  more brackets are open at once than the limits allow.
* `Reader.Reads.run`: such a reader finds the same in every text that writes the value.
* `Reader.reads_string`, `Reader.reads_unsigned`, …, `Reader.reads_list`: a lemma for each reader.
-/

namespace Monomorph
namespace Json
namespace Reader

variable {α β : Type} {r : Reader α} {a : α} {v : Value} {cs rest : List Char} {limits : Limits}

/-- The reader finds that in the value. -/
def Reads (r : Reader α) (a : α) (v : Value) : Prop :=
  ∀ (limits : Limits) (cs rest : List Char), Lays v.tokens cs → Stops continuesNumber rest →
    v.depth ≤ limits.depth → cs.length < limits.items → r limits (cs ++ rest) = .ok (a, rest)

theorem Reads.bind (h : Reads r a v) {f : α → Reader β} {b : β} (hf : f a = pure b) :
    Reads (r >>= f) b v := by
  intro limits cs rest hl hr hd hi
  rw [bind_apply_ok (h limits cs rest hl hr hd hi), hf]
  rfl

/-- In a text of nothing but the value the reader comes to the end. -/
theorem Reads.run {text : String} (h : Reads r a v) (ht : v.Writes text)
    (hd : v.depth ≤ maxDepth) : r.run text = .ok a := by
  obtain ⟨hl, hb, htext⟩ := ht
  rename_i cs blanks
  have hread := h ⟨maxDepth, (cs ++ blanks).length + 1⟩ cs blanks hl ?_ hd ?_
  · simp only [Reader.run, htext, hread, skipBlanks_blanks hb]
  · have hstops := stops_blanks hb (stops_nil continuesNumber)
    rwa [List.append_nil] at hstops
  · show cs.length < (cs ++ blanks).length + 1
    rw [List.length_append]
    omega

/-! ## Scalars -/

theorem reads_string {s : String} (h : Spells.string s v) : Reads .string s v := by
  obtain ⟨l, h, rfl⟩ := h
  intro limits cs rest hl _ _ _
  obtain ⟨after, hl, _, hskip⟩ := exists_of_lays_cons hl rfl
  cases hl
  rw [string, hskip, List.append_assoc]
  show scanString _ = _
  rw [List.singleton_append, scanString_text h, String.ofList_toList]
  rfl

theorem reads_bool {b : Bool} (h : Spells.bool b v) : Reads .bool b v := by
  cases h
  intro limits cs rest hl _ _ _
  cases b with
  | true =>
    obtain ⟨after, hl, _, hskip⟩ := exists_of_lays_cons hl rfl
    cases hl
    rw [bool, hskip]
    rfl
  | false =>
    obtain ⟨after, hl, _, hskip⟩ := exists_of_lays_cons hl rfl
    cases hl
    rw [bool, hskip]
    rfl

theorem reads_number {value? : Number → Option α} {x : NumberLiteral}
    (h : value? x.parsed = some a) :
    Reads (.number value?) a (.number x) := by
  intro limits cs rest hl hr _ _
  obtain ⟨c, t, hx, hc⟩ := x.exists_start
  have hscan := scanNumber_text x hr
  rw [Value.tokens, hx] at hl
  obtain ⟨after, hl, _, hskip⟩ :=
    exists_of_lays_cons hl (isBlank_of_startsValue (startsValue_of_number hc))
  cases hl
  have hstart : startsNumber (c :: (t ++ rest)) = true := by
    rw [startsNumber, Bool.or_eq_true, decide_eq_true_eq]
    exact hc
  rw [hx, List.cons_append] at hscan
  simp only [number, hskip, List.nil_append, hstart, ↓reduceIte, hscan, h]

theorem integerWithin?_ofInt {low high n : Int} (h : low ≤ n ∧ n ≤ high) :
    integerWithin? low high (NumberLiteral.ofInt n).parsed = some n := by
  rw [integerWithin?, integer?_ofInt]
  exact if_pos h

theorem reads_unsigned {bits n : Nat} (h : Spells.unsigned bits n v) :
    Reads (.unsigned bits) n v := by
  obtain ⟨h, rfl⟩ := h
  refine reads_number ?_
  rw [integerWithin?_ofInt (by omega)]
  rfl

theorem reads_signed {bits : Nat} {n : Int} (h : Spells.signed bits n v) :
    Reads (.signed bits) n v := by
  obtain ⟨h, rfl⟩ := h
  exact reads_number (integerWithin?_ofInt (by omega))

theorem reads_none : Reads (.optional r) none .null := by
  intro limits cs rest hl _ _ _
  obtain ⟨after, hl, _, hskip⟩ := exists_of_lays_cons hl rfl
  cases hl
  rw [optional, hskip]
  rfl

theorem reads_some (h : Reads r a v) (hv : v ≠ .null) : Reads (.optional r) (some a) v := by
  intro limits cs rest hl hr hd hi
  obtain ⟨c, t, ts, hts, hc, hnull⟩ := v.exists_start
  rw [hts] at hl
  obtain ⟨cs', hl, hlen, hskip⟩ := exists_lays_skipBlanks hl (isBlank_of_startsValue hc)
  rw [← hts] at hl
  have hread := h limits (c :: cs') rest hl hr hd (by rw [List.length_cons]; omega)
  rw [optional, hskip]
  split
  · rename_i he
    exact absurd (hnull (List.cons.inj he).1) hv
  · rw [List.cons_append] at hread
    rw [hread]
    rfl

theorem reads_optional {spells : α → Value → Prop} {o : Option α} (h : Spells.orNull spells o v)
    (hnull : ∀ a, ¬ spells a .null) (hr : ∀ a, spells a v → Reads r a v) :
    Reads (.optional r) o v := by
  cases o with
  | none =>
    cases h
    exact reads_none
  | some a =>
    refine reads_some (hr a h) ?_
    rintro rfl
    exact hnull a h

/-! ## Lists -/

/-- Behind a bracket that may be opened, one bracket less may be opened. -/
theorem exists_enter {depth : Nat} (h : depth + 1 ≤ limits.depth) :
    ∃ inner : Limits, depth ≤ inner.depth ∧ inner.items = limits.items ∧
      ∀ (r : Reader α) cs, enter r limits cs = r inner cs := by
  obtain ⟨outer, items⟩ := limits
  cases outer with
  | zero => cases h
  | succ inner => exact ⟨⟨inner, items⟩, Nat.le_of_succ_le_succ h, rfl, fun _ _ => rfl⟩

theorem hasItem_end (first : Bool) (h : skipBlanks cs = ']' :: rest) :
    hasItem first limits cs = .ok (false, ']' :: rest) := by
  rw [hasItem, h]
  rfl

/-- An item that follows stands behind the comma, and before all other tokens. -/
theorem exists_hasItem (first : Bool) {ts : List Token}
    (h : Lays (Value.separator first ++ (v.tokens ++ ts)) cs) :
    ∃ item after, Lays v.tokens item ∧ Lays ts after ∧ 0 < item.length ∧
      item.length + after.length ≤ cs.length ∧ ∀ limits rest,
        hasItem first limits (cs ++ rest) = .ok (true, item ++ (after ++ rest)) := by
  obtain ⟨c, t, us, hus, hc, _⟩ := v.exists_start
  have hne : c ≠ ']' := startsValue_ne hc rfl
  have hb := isBlank_of_startsValue hc
  rw [hus] at h
  have hfound : ∃ cs', Lays (v.tokens ++ ts) (c :: cs') ∧ cs'.length < cs.length ∧
      ∀ limits rest, hasItem first limits (cs ++ rest) = .ok (true, c :: cs' ++ rest) := by
    rw [hus]
    cases first with
    | true =>
      obtain ⟨cs', h, hlen, hskip⟩ := exists_lays_skipBlanks h hb
      refine ⟨cs', h, hlen, fun limits rest => ?_⟩
      simp only [hasItem, hskip, hne, ↓reduceIte, List.cons_append]
    | false =>
      obtain ⟨behindComma, h, hlen, hcomma⟩ := exists_of_lays_cons h rfl
      obtain ⟨cs', h, hlen', hskip⟩ := exists_lays_skipBlanks h hb
      refine ⟨cs', h, Nat.lt_trans hlen' hlen, fun limits rest => ?_⟩
      have hsep : ',' ≠ ']' := by decide
      simp only [hasItem, hcomma, hsep, Bool.false_eq_true, ↓reduceIte, List.nil_append, hskip, hne,
        List.cons_append]
  obtain ⟨cs', h, hlen, hitem⟩ := hfound
  obtain ⟨item, after, he, hv, hts⟩ := exists_of_lays_append h
  have hlength := congrArg List.length he
  rw [List.length_append, List.length_cons] at hlength
  have hpos : 0 < item.length := by
    rw [hus] at hv
    obtain ⟨_, _, hlt, _⟩ := exists_of_lays_cons hv hb
    omega
  refine ⟨item, after, hv, hts, hpos, by omega, fun limits rest => ?_⟩
  rw [hitem, he, List.append_assoc]

theorem items_eq (limits : Limits) (rest : List Char) {as : List α} {vs : List Value}
    (h : List.Forall₂ (Reads r) as vs) (first : Bool) (hl : Lays (Value.itemTokens first vs) cs)
    (hd : Value.depthOfItems vs ≤ limits.depth) (hi : cs.length < limits.items) {n : Nat}
    (hn : cs.length < n) :
    items r n first limits (cs ++ rest) = .ok (as, ']' :: rest) := by
  induction h generalizing first cs n with
  | nil =>
    obtain ⟨after, hl, _, hskip⟩ := exists_of_lays_cons hl rfl
    cases hl
    cases n with
    | zero => omega
    | succ n =>
      rw [items, bind_apply_ok (hasItem_end first (hskip rest))]
      rfl
  | @cons a v as vs ha has ih =>
    cases n with
    | zero => omega
    | succ n =>
      obtain ⟨item, after, hv, hl, hpos, hlen, hitem⟩ := exists_hasItem first hl
      have hread := ha limits item (after ++ rest) hv (stops_items hl rest)
        (Nat.le_trans (Nat.le_max_left _ _) hd) (by omega)
      have hrest := ih false hl (Nat.le_trans (Nat.le_max_right _ _) hd) (by omega) (n := n)
        (by omega)
      rw [items, bind_apply_ok (hitem limits rest)]
      show (r >>= _) limits _ = _
      rw [bind_apply_ok hread, bind_apply_ok hrest]
      rfl

theorem depth_of_mem_items {vs : List Value} (h : v ∈ vs) : v.depth < (Value.array vs).depth := by
  rw [Value.depth, Nat.lt_succ_iff]
  induction vs with
  | nil => cases h
  | cons w vs ih =>
    rcases List.mem_cons.1 h with rfl | h
    · exact Nat.le_max_left _ _
    · exact Nat.le_trans (ih h) (Nat.le_max_right _ _)

theorem reads_list {as : List α} {spells : α → Value → Prop} (h : Spells.list (as.map spells) v)
    (hr : ∀ a ∈ as, ∀ w, w.depth < v.depth → spells a w → Reads r a w) :
    Reads (.list r) as v := by
  obtain ⟨vs, hvs, rfl⟩ := h
  obtain ⟨hlength, hzip⟩ := List.forall₂_iff_zip.1 (List.forall₂_map_left_iff.1 hvs)
  have h : List.Forall₂ (Reads r) as vs := by
    refine List.forall₂_iff_zip.2 ⟨hlength, fun {a w} hm => ?_⟩
    obtain ⟨ha, hw⟩ := List.of_mem_zip hm
    exact hr a ha w (depth_of_mem_items hw) (hzip hm)
  intro limits cs rest hl hr hd hi
  obtain ⟨after, hl, hlen, hskip⟩ := exists_of_lays_cons hl rfl
  obtain ⟨inner, hd, hitems, henter⟩ := exists_enter (α := List α) hd
  have hi := Nat.lt_trans hlen hi
  have hread := items_eq inner rest h true hl hd (hitems ▸ hi) hi
  rw [list, hskip]
  show enter _ limits _ = _
  rw [henter, settling, List.nil_append, bind_apply_ok hread]
  rfl

end Reader
end Json
end Monomorph
