import Monomorph.Proofs.Catalog.InPlace
import Monomorph.Proofs.Session.Basic

/-!
# Monomorph.Proofs.Session.Publication

The catalog is append-only, and every request is all or nothing.

* `dense`: the records of a kind are numbered without gaps in the order in which they are first
  answered, by the step lemma `Performed.counted`.
* `methods_mono_of_unchanged`: without overrides and marks even the methods stay as they are.
* `bare_after`: the types after a run are those that its additions and requests of types lead to.
* `requests_appendOnly`: all this together, with what the programs of `InPlace` leave behind.
-/

namespace Monomorph

open InPlace (Publishes)

/-- The three kinds of records. -/
inductive Kind where
  | type
  | method
  | field

def Catalog.count (c : Catalog) : Kind → Nat
  | .type => c.types.size
  | .method => c.methods.size
  | .field => c.fields.size

/-- The definition without methods and fields. -/
def TypeDef.bare (t : TypeDef) : TypeDef :=
  { t with methods := [], fields := [] }

namespace Call

/-- The kind of the record that a call asks for. -/
def kind? : Call → Option Kind
  | resolveType _ _ => some .type
  | resolveMethod _ _ _ => some .method
  | resolveField _ _ => some .field
  | _ => none

/-- Whether a call changes a record that is there already. -/
def changesRecord : Call → Bool
  | addOverride _ _ => true
  | setProcessed _ _ => true
  | setSkipped _ _ => true
  | _ => false

/-- Whether a call adds or asks for a type. -/
def concernsTypes : Call → Bool
  | addType _ _ _ _ _ => true
  | resolveType _ _ => true
  | _ => false

end Call

namespace Session

variable {s t : Session} {call : Call} {answer : Answer} {calls : List Call}

theorem step_of_ok (h : s.perform call = .ok (t, answer)) : s.step call = t := by
  rw [step, h]

theorem step_of_error {e : Error} (h : s.perform call = .error e) : s.step call = s := by
  rw [step, h]

/-! ## Numbers -/

/-- Call number `i` of a run asks for a record of that kind and gets that number. -/
def Gets (calls : List Call) (i : Nat) (kind : Kind) (id : Nat) : Prop :=
  ∃ call, call.kind? = some kind ∧ Answers calls i call (.published id)

theorem gets_append_iff {i : Nat} (h : i < calls.length) (more : List Call) {kind : Kind}
    {id : Nat} : Gets (calls ++ more) i kind id ↔ Gets calls i kind id := by
  simp only [Gets, answers_append_iff h]

theorem Gets.lt_length {i : Nat} {kind : Kind} {id : Nat} (h : Gets calls i kind id) :
    i < calls.length := by
  obtain ⟨call, _, h⟩ := h
  exact h.lt_length

theorem count_modifyMethod (c : Catalog) (id : MethodInstanceId)
    (f : MethodInstance → MethodInstance) (kind : Kind) :
    (c.modifyMethod id f).count kind = c.count kind := by
  cases kind with
  | type => rfl
  | method => exact Registry.size_modify _ _ _
  | field => rfl

theorem counted_of_entered {κ α : Type} [BEq κ] [LawfulBEq κ] {r r' : Registry κ α} {key : κ}
    {i : α} {id : Nat} (h : Registry.Entered r key i r' id) {kind : Kind}
    (hk : call.kind? = some kind) :
    (r'.size = r.size ∧ ∀ k, call.kind? = some kind → Answer.published id = .published k →
      k < r.size) ∨
    (r'.size = r.size + 1 ∧ call.kind? = some kind ∧ Answer.published id = .published r.size) := by
  obtain ⟨hs, hid⟩ | ⟨hs, rfl⟩ := h.size
  · refine .inl ⟨hs, ?_⟩
    intro k _ hk
    cases hk
    exact hid
  · exact .inr ⟨hs, hk, rfl⟩

/-- The answer of a call is a number that is there before, or there is one record more of the kind
it asks for, and the answer is the number of that. -/
theorem Performed.counted (h : Performed s call answer t) (kind : Kind) :
    (t.catalog.count kind = s.catalog.count kind ∧
      ∀ id, call.kind? = some kind → answer = .published id → id < s.catalog.count kind) ∨
    (t.catalog.count kind = s.catalog.count kind + 1 ∧ call.kind? = some kind ∧
      answer = .published (s.catalog.count kind)) := by
  cases h with
  | type _ _ _ he =>
    cases kind with
    | type => exact counted_of_entered he rfl
    | method => simp [Catalog.count, Call.kind?]
    | field => simp [Catalog.count, Call.kind?]
  | method _ _ _ he =>
    cases kind with
    | type => simp [Catalog.count, Call.kind?]
    | method => exact counted_of_entered he rfl
    | field => simp [Catalog.count, Call.kind?]
  | field _ he =>
    cases kind with
    | type => simp [Catalog.count, Call.kind?]
    | method => simp [Catalog.count, Call.kind?]
    | field => exact counted_of_entered he rfl
  | override _ => simp [count_modifyMethod, Call.kind?]
  | processed _ => simp [count_modifyMethod, Call.kind?]
  | skipped _ => simp [count_modifyMethod, Call.kind?]
  | _ => simp

/-- The numbers of a kind that are answered in a run are those below the count, and no number is
answered before a smaller one. -/
structure Dense (calls : List Call) (kind : Kind) : Prop where
  exists_gets_iff : ∀ id, (∃ i, Gets calls i kind id) ↔ id < (after calls).catalog.count kind
  order : ∀ {i : Nat} {id : Nat}, Gets calls i kind id →
    ∀ other < id, ∃ j < i, Gets calls j kind other

theorem gets_concat_iff {kind : Kind} {id : Nat} :
    (∃ i, Gets (calls ++ [call]) i kind id) ↔
      (∃ i, Gets calls i kind id) ∨
        call.kind? = some kind ∧ ∃ t, (after calls).perform call = .ok (t, .published id) := by
  constructor
  · rintro ⟨i, h⟩
    by_cases hi : i < calls.length
    · exact .inl ⟨i, (gets_append_iff hi _).1 h⟩
    · have hl := h.lt_length
      simp only [List.length_append, List.length_singleton] at hl
      obtain rfl : i = calls.length := by omega
      obtain ⟨c, hc, hx, t, ht⟩ := h
      rw [getElem?_concat_length] at hx
      cases hx
      rw [before_length] at ht
      exact .inr ⟨hc, t, ht⟩
  · rintro (⟨i, h⟩ | ⟨hc, t, ht⟩)
    · exact ⟨i, (gets_append_iff h.lt_length _).2 h⟩
    · refine ⟨calls.length, call, hc, getElem?_concat_length _ _, t, ?_⟩
      rw [before_length]
      exact ht

theorem exists_gets_iff (calls : List Call) (kind : Kind) (id : Nat) :
    (∃ i, Gets calls i kind id) ↔ id < (after calls).catalog.count kind := by
  induction calls using List.reverseRecOn with
  | nil =>
    constructor
    · rintro ⟨i, h⟩
      exact absurd h.lt_length (Nat.not_lt_zero i)
    · intro h
      cases kind <;> exact absurd h (Nat.not_lt_zero id)
  | append_singleton calls call ih =>
    rw [gets_concat_iff, ih, after_concat]
    cases hp : (after calls).perform call with
    | error e =>
      rw [step_of_error hp]
      simp
    | ok p =>
      obtain ⟨t, answer⟩ := p
      rw [step_of_ok hp]
      obtain ⟨hc, ha⟩ | ⟨hc, hk, ha⟩ := (performed_of_ok hp).counted kind
      · rw [hc, or_iff_left_iff_imp]
        rintro ⟨hk, t', ht⟩
        cases ht
        exact ha id hk rfl
      · rw [hc, hk, ha]
        simp only [Except.ok.injEq, Prod.mk.injEq, Answer.published.injEq, exists_and_right,
          ↓existsAndEq, true_and]
        omega

theorem dense (calls : List Call) (kind : Kind) : Dense calls kind := by
  refine ⟨exists_gets_iff calls kind, ?_⟩
  rintro i id h other ho
  have hi := h.lt_length
  obtain ⟨call, hk, _, t, ht⟩ := h
  -- the numbers below the answer are counted when the call is performed
  have hlt : other < (before calls i).catalog.count kind := by
    obtain ⟨_, ha⟩ | ⟨_, _, ha⟩ := (performed_of_ok ht).counted kind
    · have := ha id hk rfl
      omega
    · cases ha
      exact ho
  obtain ⟨j, hj⟩ := (exists_gets_iff (calls.take i) kind other).2 hlt
  have hl := hj.lt_length
  have hji : j < i := by
    rw [List.length_take] at hl
    omega
  refine ⟨j, hji, ?_⟩
  rw [← List.take_append_drop i calls]
  exact (gets_append_iff hl _).2 hj

/-! ## Records -/

theorem Performed.methods_mono (h : Performed s call answer t)
    (hc : call.changesRecord = false) : s.catalog.methods.entries <+: t.catalog.methods.entries := by
  cases h with
  | method _ _ _ he => exact he.entries_mono
  | override _ => cases hc
  | processed _ => cases hc
  | skipped _ => cases hc
  | _ => exact List.prefix_rfl

/-- Without overrides and marks in between, the methods stay as they are. -/
theorem methods_mono_of_unchanged {more : List Call}
    (h : ∀ call ∈ more, call.changesRecord = false) :
    (after calls).catalog.methods.entries <+: (after (calls ++ more)).catalog.methods.entries := by
  induction more using List.reverseRecOn with
  | nil => simp
  | append_singleton more call ih =>
    simp only [List.mem_append, List.mem_singleton] at h
    have hm := ih fun c hc => h c (.inl hc)
    rw [← List.append_assoc, after_concat, step]
    split
    · rename_i hp
      exact hm.trans ((performed_of_ok hp).methods_mono (h call (.inr rfl)))
    · exact hm

/-! ## Types alone -/

/-- The session with nothing but its types: their definitions without methods and fields, and
their records. -/
def bare (s : Session) : Session :=
  ⟨⟨s.metadata.types.map TypeDef.bare, []⟩, ⟨s.catalog.types, ∅, ∅⟩⟩

theorem bare_withType (s : Session) (id : TypeDefId) {f : TypeDef → TypeDef}
    (hf : ∀ t : TypeDef, (f t).bare = t.bare) {methods : List MethodDef} :
    bare ⟨⟨(s.metadata.withType id f).types, methods⟩, s.catalog⟩ = s.bare := by
  rw [bare, bare, Metadata.map_withType s.metadata id hf]

theorem typeDef_bare (s : Session) (id : TypeDefId) :
    s.bare.metadata.typeDef id = (s.metadata.typeDef id).map TypeDef.bare := by
  rw [Metadata.typeDef, Metadata.typeDef, bare, List.getElem?_map]
  cases s.metadata.types[id]? with
  | none => rfl
  | some t => rfl

theorem make_bare (t : TypeDef) (args : List Sig) :
    TypeInstance.make t.bare args = TypeInstance.make t args := rfl

theorem publishType_bare (s : Session) (key : String) (i : TypeInstance) :
    s.bare.catalog.publishType key i =
      (⟨(s.catalog.publishType key i).1.types, ∅, ∅⟩, (s.catalog.publishType key i).2) := by
  simp only [Catalog.publishType, bare]
  cases s.catalog.types.find? key with
  | some id => rfl
  | none => rfl

theorem findType?_bare (s : Session) (fullName : String) :
    s.bare.metadata.findType? fullName = s.metadata.findType? fullName := by
  rw [Metadata.findType?, Metadata.findType?, bare, List.findIdx?_map]
  rfl

theorem Performed.bare (h : Performed s call answer t) (hc : call.concernsTypes = false) :
    t.bare = s.bare := by
  cases h with
  | addType _ => cases hc
  | type _ _ _ _ => cases hc
  | addMethod h =>
    obtain ⟨_, rfl⟩ := Metadata.addMethod_ok h
    refine bare_withType s _ ?_
    intro t
    rfl
  | addField h =>
    rw [Metadata.addField_ok h]
    refine bare_withType s _ ?_
    intro t
    rfl
  | _ => rfl

theorem bare_perform (hc : call.concernsTypes = true) :
    s.bare.perform call = (s.perform call).map fun (t, answer) => (t.bare, answer) := by
  cases call with
  | addType nameSpace name genericParams corlib valueType =>
    simp only [perform, Metadata.addType, findType?_bare]
    cases s.metadata.findType? (qualifiedName nameSpace name) with
    | some id => rfl
    | none => simp [Except.map, bare, TypeDef.bare]
  | resolveType type args =>
    simp only [perform, Catalog.resolveType, typeDef_bare]
    cases s.metadata.typeDef type with
    | error e => rfl
    | ok d =>
      simp only [Except.map, bind, Except.bind, make_bare]
      cases TypeInstance.make d args with
      | error e => rfl
      | ok i =>
        dsimp only
        cases i.isConcrete with
        | error e => rfl
        | ok concrete =>
          cases concrete with
          | false => rfl
          | true =>
            dsimp only
            cases i.key with
            | error e => rfl
            | ok key =>
              simp only [publishType_bare]
              rfl
  | _ => cases hc

/-- The types are those that the calls concerning types lead to on their own. -/
theorem bare_after (calls : List Call) :
    (after calls).bare = after (calls.filter Call.concernsTypes) := by
  induction calls using List.reverseRecOn with
  | nil => rfl
  | append_singleton calls call ih =>
    rw [after_concat, List.filter_append]
    cases hc : call.concernsTypes with
    | false =>
      rw [List.filter_cons_of_neg (by rw [hc]; decide), List.filter_nil, List.append_nil, ← ih, step]
      split
      · rename_i hp
        exact (performed_of_ok hp).bare hc
      · rfl
    | true =>
      rw [List.filter_cons_of_pos hc, List.filter_nil, after_concat, ← ih, step, step,
        bare_perform hc]
      cases (after calls).perform call with
      | error e => rfl
      | ok p => rfl

/-! ## The catalog as a whole -/

/-- In place a request does what it does as a function. It changes nothing or adds one record at
the end of its own registry, so a run numbers the records without gaps, keeps them, and its types
do not depend on the calls for methods and fields. -/
theorem requests_appendOnly (calls : List Call) :
    (∀ m : Metadata,
      (∀ type args, InPlace.resolveType m type args =
        .ofStep fun c => c.resolveType m type args) ∧
      (∀ owner method args, InPlace.resolveMethod m owner method args =
        .ofStep fun c => c.resolveMethod m owner method args) ∧
      ∀ owner index, InPlace.resolveField m owner index =
        .ofStep fun c => c.resolveField m owner index) ∧
    (∀ (m : Metadata) (c : Catalog),
      (∀ type args, Publishes c c.types (fun r => { c with types := r }) (m.typeKey type args)
        (m.freshType type args) ((InPlace.resolveType m type args).run c)) ∧
      (∀ owner method args, Publishes c c.methods (fun r => { c with methods := r })
        ((c.methodKey m owner method args).map fun key => (owner, key))
        (c.freshMethod m owner method args)
        ((InPlace.resolveMethod m owner method args).run c)) ∧
      ∀ owner index, Publishes c c.fields (fun r => { c with fields := r })
        ((c.fieldKey m owner index).map fun key => (owner, key)) (c.freshField m owner index)
        ((some <$> InPlace.resolveField m owner index).run c)) ∧
    (∀ kind, Dense calls kind) ∧
    (∀ more, (after calls).catalog.Grows (after (calls ++ more)).catalog ∧
      ((∀ call ∈ more, call.changesRecord = false) →
        (after calls).catalog.methods.entries <+:
          (after (calls ++ more)).catalog.methods.entries)) ∧
    (after calls).catalog.types = (after (calls.filter Call.concernsTypes)).catalog.types := by
  refine ⟨?_, ?_, dense calls, ?_, ?_⟩
  · intro m
    exact ⟨InPlace.resolveType_eq m, InPlace.resolveMethod_eq m, InPlace.resolveField_eq m⟩
  · intro m c
    exact ⟨InPlace.resolveType_publishes c m, InPlace.resolveMethod_publishes c m,
      InPlace.resolveField_publishes c m⟩
  · intro more
    exact ⟨(grows_after calls more).catalog, methods_mono_of_unchanged⟩
  · show (after calls).bare.catalog.types = _
    rw [bare_after]

/-- A generic type, asked for with two arguments, with a parameter and with none; then a method of
the second record. -/
def shelfCalls : List Call :=
  [.addType "Demo" "Shelf" 1 false false,
    .addMethod 0 "Top" (.plain ⟨0x20⟩ (.typeParam 0 ⟨0, "Demo", "Shelf", false⟩) []) ⟨6⟩ none,
    .resolveType 0 [.primitive .int32],
    .resolveType 0 [.typeParam 0 ⟨0, "Demo", "Shelf", false⟩], .resolveType 0 [],
    .resolveType 0 [.primitive .string], .resolveMethod 1 0 []]

/-- The second type has the number after the first, and asking again moves no method. -/
theorem requests_appendOnly_shelf :
    (∃ j < 5, Gets shelfCalls j .type 0) ∧
      (after shelfCalls).catalog.methods.entries <+:
        (after (shelfCalls ++ [.resolveMethod 1 0 [], .resolveMethod 0 0 []])).catalog.methods.entries
    := by
  obtain ⟨_, _, hdense, hmore, _⟩ := requests_appendOnly shelfCalls
  have h : Gets shelfCalls 5 .type 1 := ⟨.resolveType 0 [.primitive .string], rfl, rfl, _, rfl⟩
  refine ⟨(hdense .type).order h 0 (by decide), (hmore _).2 ?_⟩
  decide

end Session
end Monomorph
