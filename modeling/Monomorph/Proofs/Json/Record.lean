import Monomorph.Proofs.Json.Reading

/-!
# Monomorph.Proofs.Json.Record

What records and choices are read from.

* `Members.Awaits`: the members of a record that are still to come, with what was found already.
  Reading the next member of an object keeps this (`Members.Awaits.next`), and at first it holds
  of the members as they are spelled (`Members.Awaits.of_given`, `Members.Awaits.of_defaulted`).
* `Reader.reads_record`: so a record is read from its members in any order, among any others.
* `Reader.reads_choice`: a variant is read from an object with its name and contents alone.
-/

namespace Monomorph
namespace Json

namespace Reader

theorem exists_colon {ts : List Token} {cs : List Char} (h : Lays ([':'] :: ts) cs) :
    ∃ after, Lays ts after ∧ after.length < cs.length ∧ ∀ limits rest,
      colon limits (cs ++ rest) = .ok ((), after ++ rest) := by
  obtain ⟨after, h, hlen, hskip⟩ := exists_of_lays_cons h rfl
  refine ⟨after, h, hlen, fun limits rest => ?_⟩
  rw [colon, hskip]
  rfl

end Reader

open Reader

namespace Members

def names : {αs : List Type} → Members αs → List String
  | _, nil => []
  | _, cons m ms => m.name :: ms.names

/-- With the members that are still to come, the values found so far make up the record. Each member
is to come once, or has been found, or may be missing. -/
def Awaits : {αs : List Type} → Members αs → Values αs → List (String × Value) → Slots αs → Prop
  | _, nil, _, _, _ => True
  | _, cons m ms, (a, as), xs, (slot, slots) =>
    (slot = none ∧ (∃ v, xs.filter (·.1 == m.name) = [(m.name, v)] ∧ Reads m.reader a v) ∨
      xs.filter (·.1 == m.name) = [] ∧ slot.orElse (fun _ => m.absent) = some a) ∧
    ms.Awaits as xs slots

variable {αs : List Type} {ms : Members αs} {as : Values αs} {slots : Slots αs} {name : String}
  {v : Value} {xs : List (String × Value)}

/-- A member of another name is not waited for. -/
theorem Awaits.skip (h : ms.Awaits as ((name, v) :: xs) slots) (hn : name ∉ ms.names) :
    ms.Awaits as xs slots := by
  induction ms with
  | nil => trivial
  | cons m ms ih =>
    obtain ⟨hm, hms⟩ := h
    rw [names, List.mem_cons, not_or] at hn
    have hfilter : ((name, v) :: xs).filter (·.1 == m.name) = xs.filter (·.1 == m.name) :=
      List.filter_cons_of_neg fun he => hn.1 (eq_of_beq he)
    rw [hfilter] at hm
    exact ⟨hm, ih hms hn.2⟩

theorem complete_cons {α : Type} {m : Member α} {slot : Option α} {a : α}
    (hslot : slot.orElse (fun _ => m.absent) = some a) (hslots : ms.complete slots = some as) :
    (cons m ms).complete (slot, slots) = some (a, as) := by
  simp only [complete, hslot, hslots]
  rfl

/-- Whatever is still to come, nothing more is asked of a record once all of it was found. -/
theorem Awaits.complete (h : ms.Awaits as [] slots) : ms.complete slots = some as := by
  induction ms with
  | nil => rfl
  | cons m ms ih =>
    obtain ⟨slot, slots⟩ := slots
    obtain ⟨a, as⟩ := as
    obtain ⟨⟨_, v, hv, _⟩ | ⟨_, hslot⟩, hms⟩ := h
    · cases hv
    · exact complete_cons hslot (ih hms)

section Cons

variable {α : Type} {m : Member α} {slot : Option α}

theorem member?_cons_self : (cons m ms).member? m.name (none, slots) = some (do
    Reader.colon
    let a ← m.reader
    return (some a, slots)) :=
  if_pos rfl

theorem member?_cons_of_ne (h : m.name ≠ name) :
    (cons m ms).member? name (slot, slots) = (ms.member? name slots).map fun r => do
      let slots ← r
      return (slot, slots) :=
  if_neg h

end Cons

theorem member?_eq_none (hn : name ∉ ms.names) : ms.member? name slots = none := by
  induction ms with
  | nil => rfl
  | cons m ms ih =>
    rw [names, List.mem_cons, not_or] at hn
    obtain ⟨slot, slots⟩ := slots
    rw [member?_cons_of_ne (Ne.symm hn.1), ih hn.2]
    rfl

/-- The reader goes over the colon and the value of a member to those slots. -/
def ReadsMember (r : Reader (Slots αs)) (slots : Slots αs) (v : Value) : Prop :=
  ∀ (limits : Limits) (cs rest : List Char), Lays ([':'] :: v.tokens) cs →
    Stops continuesNumber rest → v.depth ≤ limits.depth → cs.length < limits.items →
      r limits (cs ++ rest) = .ok (slots, rest)

/-- A member that is waited for is found. -/
theorem Awaits.exists_found (hnodup : ms.names.Nodup)
    (h : ms.Awaits as ((name, v) :: xs) slots) (hn : name ∈ ms.names) :
    ∃ r slots', ms.member? name slots = some r ∧ ReadsMember r slots' v ∧
      ms.Awaits as xs slots' := by
  induction ms with
  | nil => cases hn
  | cons m ms ih =>
    obtain ⟨slot, slots⟩ := slots
    obtain ⟨a, as⟩ := as
    obtain ⟨hm, hms⟩ := h
    rw [names, List.nodup_cons] at hnodup
    by_cases hname : m.name = name
    · subst hname
      have hfilter : ((m.name, v) :: xs).filter (·.1 == m.name) =
          (m.name, v) :: xs.filter (·.1 == m.name) :=
        List.filter_cons_of_pos (beq_self_eq_true m.name)
      rw [hfilter] at hm
      obtain ⟨rfl, v', hv, hread⟩ | ⟨he, _⟩ := hm
      · obtain ⟨hv, hxs⟩ := List.cons.inj hv
        cases hv
        refine ⟨_, (some a, slots), member?_cons_self, ?_, .inr ⟨hxs, rfl⟩, hms.skip hnodup.1⟩
        intro limits cs rest hl hr hd hi
        obtain ⟨after, hl, hlen, hcolon⟩ := exists_colon hl
        have hvalue := hread limits after rest hl hr hd (Nat.lt_trans hlen hi)
        rw [bind_apply_ok (hcolon limits rest), bind_apply_ok hvalue]
        rfl
      · cases he
    · have hne : (name == m.name) = false := beq_false_of_ne (Ne.symm hname)
      rw [names, List.mem_cons] at hn
      obtain ⟨r, slots', hr, hread, hms⟩ := ih hnodup.2 hms (hn.resolve_left (Ne.symm hname))
      have hmember : (cons m ms).member? name (slot, slots) = some (do
          let slots ← r
          return (slot, slots)) := by
        rw [member?_cons_of_ne hname, hr]
        rfl
      refine ⟨_, (slot, slots'), hmember, ?_, ?_, hms⟩
      · intro limits cs rest hl hs hd hi
        rw [bind_apply_ok (hread limits cs rest hl hs hd hi)]
        rfl
      · rwa [List.filter_cons_of_neg (by rw [hne]; exact Bool.false_ne_true)] at hm

/-- The next member of an object is read, whether it is waited for or not. -/
theorem Awaits.next (hnodup : ms.names.Nodup) (h : ms.Awaits as ((name, v) :: xs) slots) :
    ∃ slots', ReadsMember (ms.member name slots) slots' v ∧ ms.Awaits as xs slots' := by
  by_cases hn : name ∈ ms.names
  · obtain ⟨r, slots', hr, hread, h⟩ := h.exists_found hnodup hn
    refine ⟨slots', ?_, h⟩
    rw [member, hr]
    exact hread
  · refine ⟨slots, ?_, h.skip hn⟩
    intro limits cs rest hl hs _ _
    obtain ⟨after, hl, _, hcolon⟩ := exists_colon hl
    have hignored : ignored limits (after ++ rest) = .ok ((), rest) := by
      rw [ignored, skipValue_eq hl hs]
      rfl
    rw [member, member?_eq_none hn]
    show (colon >>= _) limits _ = _
    rw [bind_apply_ok (hcolon limits rest), bind_apply_ok hignored]
    rfl

/-! ### Before the first member -/

section Start

variable {α : Type} {r : Reader α} {a default : α} {p : Value → Prop} {absent : Option α}

theorem Awaits.of_given (h : Spells.given name p xs)
    (hr : ∀ w, (name, w) ∈ xs → p w → Reads r a w) (hms : ms.Awaits as xs ms.noneFound) :
    (cons ⟨name, r, absent⟩ ms).Awaits (a, as) xs (cons ⟨name, r, absent⟩ ms).noneFound := by
  obtain ⟨w, hw, hp⟩ := h
  have hm : (name, w) ∈ xs := List.mem_of_mem_filter (by rw [hw]; exact List.mem_singleton_self _)
  exact ⟨.inl ⟨rfl, w, hw, hr w hm hp⟩, hms⟩

theorem Awaits.of_defaulted (h : Spells.defaulted name default a p xs)
    (hr : ∀ w, (name, w) ∈ xs → p w → Reads r a w) (hms : ms.Awaits as xs ms.noneFound) :
    (cons ⟨name, r, some default⟩ ms).Awaits (a, as) xs
      (cons ⟨name, r, some default⟩ ms).noneFound := by
  obtain h | ⟨rfl, h⟩ := h
  · exact .of_given h hr hms
  · exact ⟨.inr ⟨h, rfl⟩, hms⟩

theorem Awaits.of_listed {bs : List α} {spells : α → Value → Prop}
    (h : Spells.listed name spells bs xs)
    (hr : ∀ b w, spells b w → Reads r b w) (hms : ms.Awaits as xs ms.noneFound) :
    (cons ⟨name, .list r, some []⟩ ms).Awaits (bs, as) xs
      (cons ⟨name, .list r, some []⟩ ms).noneFound :=
  .of_defaulted h (fun _ _ hw => reads_list hw fun b _ w _ => hr b w) hms

theorem Awaits.of_optional {o : Option α} {spells : α → Value → Prop}
    (h : Spells.optional name spells o xs) (hnull : ∀ b, ¬ spells b .null)
    (hr : ∀ b w, spells b w → Reads r b w) (hms : ms.Awaits as xs ms.noneFound) :
    (cons ⟨name, .optional r, some none⟩ ms).Awaits (o, as) xs
      (cons ⟨name, .optional r, some none⟩ ms).noneFound :=
  .of_defaulted h (fun w _ hw => reads_optional hw hnull fun b => hr b w) hms

end Start

/-! ## Objects -/

theorem memberName_end (first : Bool) {cs rest : List Char} {limits : Limits}
    (h : skipBlanks cs = '}' :: rest) : memberName first limits cs = .ok (none, '}' :: rest) := by
  rw [memberName, h]
  rfl

/-- The name of a member that follows stands behind the comma. -/
theorem exists_memberName (first : Bool) {l : Literal} {ts : List Token} {cs : List Char}
    (h : Lays (Value.separator first ++ l.text :: ts) cs) (hl : l.Denotes name.toList) :
    ∃ after, Lays ts after ∧ after.length < cs.length ∧ ∀ limits rest,
      memberName first limits (cs ++ rest) = .ok (some name, after ++ rest) := by
  have hscan := scanString_text hl
  have hbrace : '"' ≠ '}' := by decide
  cases first with
  | true =>
    obtain ⟨after, h, hlen, hskip⟩ := exists_of_lays_cons h rfl
    refine ⟨after, h, hlen, fun limits rest => ?_⟩
    simp only [memberName, hskip, hbrace, ↓reduceIte, List.append_assoc, List.singleton_append,
      hscan, String.ofList_toList]
    rfl
  | false =>
    obtain ⟨behindComma, h, hlen, hcomma⟩ := exists_of_lays_cons h rfl
    obtain ⟨after, h, hlen', hskip⟩ := exists_of_lays_cons h rfl
    refine ⟨after, h, Nat.lt_trans hlen' hlen, fun limits rest => ?_⟩
    have hsep : ',' ≠ '}' := by decide
    simp only [memberName, hcomma, hsep, Bool.false_eq_true, ↓reduceIte, List.nil_append, hskip,
      List.append_assoc, List.singleton_append, hscan, String.ofList_toList]
    rfl

theorem inObject_eq (limits : Limits) (rest : List Char) (hnodup : ms.names.Nodup)
    {members : List (Literal × Value)} (hm : Named members xs) (h : ms.Awaits as xs slots)
    (first : Bool) {cs : List Char} (hl : Lays (Value.memberTokens first members) cs)
    (hd : Value.depthOfMembers members ≤ limits.depth) (hi : cs.length < limits.items) {n : Nat}
    (hn : cs.length < n) :
    ∃ slots', ms.Awaits as [] slots' ∧
      ms.inObject n first slots limits (cs ++ rest) = .ok (slots', '}' :: rest) := by
  induction hm generalizing slots first cs n with
  | nil =>
    obtain ⟨after, hl, _, hskip⟩ := exists_of_lays_cons hl rfl
    cases hl
    cases n with
    | zero => omega
    | succ n =>
      refine ⟨slots, h, ?_⟩
      rw [inObject, bind_apply_ok (memberName_end first (hskip rest))]
      rfl
  | @cons m x members xs hx _ ih =>
    obtain ⟨l, v⟩ := m
    obtain ⟨name, v'⟩ := x
    obtain ⟨hname, rfl⟩ := hx
    cases n with
    | zero => omega
    | succ n =>
      obtain ⟨afterName, hl, hlen, hread⟩ := exists_memberName first hl hname
      have hl : Lays (([':'] :: v.tokens) ++ Value.memberTokens false members) afterName := hl
      obtain ⟨member, after, rfl, hmember, hl⟩ := exists_of_lays_append hl
      obtain ⟨slots₁, hnext, h⟩ := h.next hnodup
      rw [List.length_append] at hlen
      have hvalue := hnext limits member (after ++ rest) hmember (stops_members hl rest)
        (Nat.le_trans (Nat.le_max_left _ _) hd) (by omega)
      obtain ⟨slots', h, hrest⟩ := ih h false hl (Nat.le_trans (Nat.le_max_right _ _) hd) (by omega)
        (n := n) (by omega)
      refine ⟨slots', h, ?_⟩
      rw [inObject, bind_apply_ok (hread limits rest), List.append_assoc]
      show (ms.member name slots >>= _) limits _ = _
      rw [bind_apply_ok hvalue, hrest]

end Members

namespace Reader

theorem depth_of_mem_named {members : List (Literal × Value)} {xs : List (String × Value)}
    (hm : Named members xs) {x : String × Value} (hx : x ∈ xs) :
    x.2.depth < (Value.object members).depth := by
  rw [Value.depth, Nat.lt_succ_iff]
  induction hm with
  | nil => cases hx
  | cons h _ ih =>
    rcases List.mem_cons.1 hx with rfl | hx
    · rw [← h.2]
      exact Nat.le_max_left _ _
    · exact Nat.le_trans (ih hx) (Nat.le_max_right _ _)

/-- A record is read from its members in any order, among any others. -/
theorem reads_record {αs : List Type} {ms : Members αs} {as : Values αs} {v : Value}
    {p : List (String × Value) → Prop} (h : Spells.object p v) (hnodup : ms.names.Nodup)
    (ha : ∀ xs, (∀ x ∈ xs, x.2.depth < v.depth) → p xs → ms.Awaits as xs ms.noneFound) :
    Reads (.record ms) as v := by
  obtain ⟨members, xs, hm, hp, rfl⟩ := h
  have h := ha xs (fun x hx => depth_of_mem_named hm hx) hp
  intro limits cs rest hl hr hd hi
  obtain ⟨after, hl, hlen, hskip⟩ := exists_of_lays_cons hl rfl
  obtain ⟨inner, hd, hitems, henter⟩ := exists_enter (α := Values αs) hd
  have hi := Nat.lt_trans hlen hi
  obtain ⟨slots, h, hobject⟩ :=
    Members.inObject_eq inner rest hnodup hm h true hl hd (hitems ▸ hi) hi
  rw [record, hskip]
  show enter _ limits _ = _
  rw [henter, settling, List.nil_append, bind_apply_ok hobject, Members.finish, h.complete]
  rfl

variable {α : Type} {find? : String → Option (Variant α)} {name : String} {a : α} {v : Value}

theorem reads_choice {p : Value → Prop} (h : Spells.variant name p v) {r : Reader α}
    (hf : find? name = some (.holding r)) (hr : ∀ w, w.depth < v.depth → p w → Reads r a w) :
    Reads (.choice find?) a v := by
  obtain ⟨l, w, hl, hp, rfl⟩ := h
  have hw : w.depth < (Value.object [(l, w)]).depth := Nat.lt_succ_of_le (Nat.le_max_left _ _)
  have h := hr w hw hp
  intro limits cs rest ht _ hd hi
  obtain ⟨inside, ht, hlen, hskip⟩ := exists_of_lays_cons ht rfl
  obtain ⟨inner, hd, hitems, henter⟩ := exists_enter (α := α) hd
  obtain ⟨afterName, ht, hlen', hname⟩ := exists_of_lays_cons ht rfl
  obtain ⟨afterColon, ht, hlen'', hcolon⟩ := exists_colon ht
  obtain ⟨value, closing, rfl, hv, ht⟩ := exists_of_lays_append ht
  obtain ⟨after, ht', _, hend⟩ := exists_of_lays_cons ht rfl
  cases ht'
  rw [List.length_append] at hlen''
  have hscan : variantName inner (inside ++ rest) = .ok (name, afterName ++ rest) := by
    have hscan := scanString_text hl (afterName ++ rest)
    simp only [variantName, hname, List.append_assoc, List.singleton_append, hscan,
      String.ofList_toList]
  have hvariant : variantNamed find? name inner (afterName ++ rest) =
      .ok (.holding r, afterName ++ rest) := by
    rw [variantNamed, hf]
    rfl
  have hvalue := h inner value (closing ++ rest) hv (stops_of_lays ht rfl rest)
    (Nat.le_trans (Nat.le_max_left _ _) hd) (by omega)
  have hclosing : choiceEnd inner (closing ++ rest) = .ok ((), rest) := by
    rw [choiceEnd, hend]
    rfl
  rw [choice, hskip]
  show enter _ limits _ = _
  rw [henter, List.nil_append, bind_apply_ok hscan, bind_apply_ok hvariant,
    bind_apply_ok (hcolon _ rest), List.append_assoc]
  show (r >>= _) _ _ = _
  rw [bind_apply_ok hvalue, bind_apply_ok hclosing]
  rfl

theorem reads_bare (h : Spells.string name v) (hf : find? name = some (.bare a)) :
    Reads (.choice find?) a v := by
  obtain ⟨l, hl, rfl⟩ := h
  intro limits cs rest ht _ _ _
  obtain ⟨after, ht, _, hskip⟩ := exists_of_lays_cons ht rfl
  cases ht
  have hscan : scan scanString limits (l.flatMap Piece.text ++ '"' :: rest) = .ok (name, rest) := by
    rw [scan, scanString_text hl, String.ofList_toList]
  rw [choice, hskip, List.append_assoc]
  show (scan scanString >>= _) limits _ = _
  rw [List.singleton_append, List.nil_append, bind_apply_ok hscan, variantNamed, hf]
  rfl

end Reader

end Json
end Monomorph
