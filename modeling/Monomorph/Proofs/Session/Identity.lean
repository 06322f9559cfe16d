import Monomorph.Proofs.Key
import Monomorph.Proofs.Session.Coherence

/-!
# Monomorph.Proofs.Session.Identity

Which requests of a run get the same record.

* `Answers.typeKey`, `Answers.methodKey`, `Answers.fieldKey`: at the end of a run the key of every
  answered request still stands at the number that it got.
* `same_record_iff_same_key`: so two requests get the same record iff their keys are equal, however
  far apart they are and whatever was added in between. After every run the records are
  `Consistent` with their keys.
* `type_of_resolveType`: the record of a type belongs to the definition that was asked for.
-/

namespace Monomorph
namespace Session

variable {s : Session} {calls : List Call} {i : Nat}

/-! ## The key of a request -/

theorem Answers.typeKey {type : TypeDefId} {args : List Sig} {id : TypeInstanceId}
    (h : Answers calls i (.resolveType type args) (.published id)) :
    ∃ key, (before calls i).metadata.typeKey type args = .ok key ∧
      (after calls).catalog.types.keys[id]? = some key := by
  obtain ⟨t, hp, hg⟩ := h.performed
  cases hp with
  | type hf _ hk he =>
    refine ⟨_, ?_, hg.catalog.typeKey he.getElem?_keys⟩
    rw [Metadata.typeKey_of_freshType hf]
    exact hk

theorem Answers.methodKey {owner : TypeInstanceId} {method : MethodDefId} {args : List Sig}
    {id : MethodInstanceId} (h : Answers calls i (.resolveMethod owner method args) (.published id)) :
    ∃ key, (before calls i).catalog.methodKey (before calls i).metadata owner method args = .ok key ∧
      (after calls).catalog.methods.keys[id]? = some (owner, key) := by
  obtain ⟨t, hp, hg⟩ := h.performed
  cases hp with
  | method _ hf hk he =>
    refine ⟨_, ?_, hg.catalog.methodKey he.getElem?_keys⟩
    rw [Catalog.methodKey_of_freshMethod hf]
    exact hk

theorem Answers.fieldKey {owner : TypeInstanceId} {index : Nat} {id : FieldInstanceId}
    (h : Answers calls i (.resolveField owner index) (.published id)) :
    ∃ key, (before calls i).catalog.fieldKey (before calls i).metadata owner index = .ok key ∧
      (after calls).catalog.fields.keys[id]? = some (owner, key) := by
  obtain ⟨t, hp, hg⟩ := h.performed
  cases hp with
  | field hf he =>
    exact ⟨_, Catalog.fieldKey_of_freshField hf, hg.catalog.fieldKey he.getElem?_keys⟩

/-! ## Records and their keys -/

/-- Every record stands once, under the key computed from it and with the record of its owner; to
ask for it again changes nothing. -/
structure Consistent (s : Session) : Prop where
  typeKeys : s.catalog.types.keys.Nodup
  methodKeys : s.catalog.methods.keys.Nodup
  fieldKeys : s.catalog.fields.keys.Nodup
  type : ∀ {id : TypeInstanceId} {key : String} {i : TypeInstance},
    s.catalog.types.entries[id]? = some (key, i) →
      i.key = .ok key ∧
        s.catalog.resolveType s.metadata i.type.id i.args = .ok (s.catalog, some id)
  method : ∀ {id : MethodInstanceId} {owner : TypeInstanceId} {key : String} {i : MethodInstance},
    s.catalog.methods.entries[id]? = some ((owner, key), i) →
      i.concretizedKey = .ok key ∧ s.catalog.typeInstance owner = .ok i.owner ∧
        s.catalog.resolveMethod s.metadata owner i.definition.id i.args =
          .ok (s.catalog, some id)
  field : ∀ {id : FieldInstanceId} {owner : TypeInstanceId} {key : String} {i : FieldInstance},
    s.catalog.fields.entries[id]? = some ((owner, key), i) →
      i.key = key ∧ Key.ofField i.name i.type = .ok key ∧
        s.catalog.typeInstance owner = .ok i.owner

theorem Coherent.consistent (h : s.Coherent) : s.Consistent := by
  refine ⟨h.typeKeys, h.methodKeys, h.fieldKeys, ?_, ?_, ?_⟩
  · intro id key i hi
    have he := h.typeEntry hi
    have hf := Registry.find?_of_getElem?_keys h.typeKeys (Registry.key_of_entry hi)
    exact ⟨he.key, Catalog.resolveType_of_find? he.fresh he.isConcrete he.key hf⟩
  · intro id owner key i hi
    have he := h.methodEntry hi
    have hf := Registry.find?_of_getElem?_keys h.methodKeys (Registry.key_of_entry hi)
    exact ⟨he.key, he.owner, Catalog.resolveMethod_of_find? he.noParam he.fresh he.key hf⟩
  · intro id owner key i hi
    have he := h.fieldEntry hi
    obtain ⟨index, hx⟩ := he.fresh
    obtain ⟨ho, hk⟩ := Catalog.freshField_ok hx
    rw [he.key] at hk
    exact ⟨he.key, hk, ho⟩

/-- Two requests of a run get the same record iff they have the same key. -/
theorem same_record_iff_same_key (calls : List Call) :
    (∀ {i j : Nat} {type type' : TypeDefId} {args args' : List Sig} {id id' : TypeInstanceId},
      Answers calls i (.resolveType type args) (.published id) →
      Answers calls j (.resolveType type' args') (.published id') →
      ∃ key key', (before calls i).metadata.typeKey type args = .ok key ∧
        (before calls j).metadata.typeKey type' args' = .ok key' ∧ (id = id' ↔ key = key')) ∧
    (∀ {i j : Nat} {owner owner' : TypeInstanceId} {method method' : MethodDefId}
      {args args' : List Sig} {id id' : MethodInstanceId},
      Answers calls i (.resolveMethod owner method args) (.published id) →
      Answers calls j (.resolveMethod owner' method' args') (.published id') →
      ∃ key key',
        (before calls i).catalog.methodKey (before calls i).metadata owner method args = .ok key ∧
        (before calls j).catalog.methodKey (before calls j).metadata owner' method' args' =
          .ok key' ∧
        (id = id' ↔ owner = owner' ∧ key = key')) ∧
    (∀ {i j : Nat} {owner owner' : TypeInstanceId} {index index' : Nat} {id id' : FieldInstanceId},
      Answers calls i (.resolveField owner index) (.published id) →
      Answers calls j (.resolveField owner' index') (.published id') →
      ∃ key key',
        (before calls i).catalog.fieldKey (before calls i).metadata owner index = .ok key ∧
        (before calls j).catalog.fieldKey (before calls j).metadata owner' index' = .ok key' ∧
        (id = id' ↔ owner = owner' ∧ key = key')) ∧
    (after calls).Consistent := by
  have hc := coherent_after calls
  refine ⟨?_, ?_, ?_, hc.consistent⟩
  · intro i j type type' args args' id id' hi hj
    obtain ⟨key, hk, hx⟩ := hi.typeKey
    obtain ⟨key', hk', hx'⟩ := hj.typeKey
    exact ⟨key, key', hk, hk', position_inj hc.typeKeys hx hx'⟩
  · intro i j owner owner' method method' args args' id id' hi hj
    obtain ⟨key, hk, hx⟩ := hi.methodKey
    obtain ⟨key', hk', hx'⟩ := hj.methodKey
    refine ⟨key, key', hk, hk', ?_⟩
    rw [← Prod.mk.injEq]
    exact position_inj hc.methodKeys hx hx'
  · intro i j owner owner' index index' id id' hi hj
    obtain ⟨key, hk, hx⟩ := hi.fieldKey
    obtain ⟨key', hk', hx'⟩ := hj.fieldKey
    refine ⟨key, key', hk, hk', ?_⟩
    rw [← Prod.mk.injEq]
    exact position_inj hc.fieldKeys hx hx'

/-- Two types, the second of which is named like an instance of the first, and requests that
follow one another with additions in between. -/
def boxCalls : List Call :=
  [.addType "Demo" "Box" 1 false false,
    .addMethod 0 "Put"
      (.plain ⟨0x20⟩ (.primitive .void) [.typeParam 0 ⟨0, "Demo", "Box", false⟩]) ⟨6⟩ none,
    .resolveType 0 [.primitive .int32], .resolveMethod 0 0 [],
    .addType "Demo" "Box<Int32>" 0 false false, .resolveType 1 [],
    .addField 0 ⟨"value", .typeParam 0 ⟨0, "Demo", "Box", false⟩, false⟩,
    .addField 0 ⟨"value", .primitive .int32, true⟩, .setProcessed 0 true,
    .resolveType 0 [.pinned (.primitive .int32)], .resolveMethod 0 0 [], .resolveField 0 0,
    .resolveField 0 1]

/-- Pinning does not count for a type, and neither do a mark for a method and staticness for a
field; a name does. -/
theorem same_record_iff_same_key_box :
    (∃ key, (before boxCalls 2).metadata.typeKey 0 [.primitive .int32] = .ok key ∧
      (before boxCalls 9).metadata.typeKey 0 [.pinned (.primitive .int32)] = .ok key) ∧
    (∃ key key', (before boxCalls 2).metadata.typeKey 0 [.primitive .int32] = .ok key ∧
      (before boxCalls 5).metadata.typeKey 1 [] = .ok key' ∧ key ≠ key') ∧
    (∃ key, (before boxCalls 3).catalog.methodKey (before boxCalls 3).metadata 0 0 [] = .ok key ∧
      (before boxCalls 10).catalog.methodKey (before boxCalls 10).metadata 0 0 [] = .ok key) ∧
    ∃ key, (before boxCalls 11).catalog.fieldKey (before boxCalls 11).metadata 0 0 = .ok key ∧
      (before boxCalls 12).catalog.fieldKey (before boxCalls 12).metadata 0 1 = .ok key := by
  obtain ⟨htype, hmethod, hfield, _⟩ := same_record_iff_same_key boxCalls
  have h2 : Answers boxCalls 2 (.resolveType 0 [.primitive .int32]) (.published 0) :=
    ⟨rfl, _, rfl⟩
  have h5 : Answers boxCalls 5 (.resolveType 1 []) (.published 1) := ⟨rfl, _, rfl⟩
  have h9 : Answers boxCalls 9 (.resolveType 0 [.pinned (.primitive .int32)]) (.published 0) :=
    ⟨rfl, _, rfl⟩
  have h3 : Answers boxCalls 3 (.resolveMethod 0 0 []) (.published 0) := ⟨rfl, _, rfl⟩
  have h10 : Answers boxCalls 10 (.resolveMethod 0 0 []) (.published 0) := ⟨rfl, _, rfl⟩
  have h11 : Answers boxCalls 11 (.resolveField 0 0) (.published 0) := ⟨rfl, _, rfl⟩
  have h12 : Answers boxCalls 12 (.resolveField 0 1) (.published 0) := ⟨rfl, _, rfl⟩
  refine ⟨?_, ?_, ?_, ?_⟩
  · obtain ⟨key, key', hk, hk', he⟩ := htype h2 h9
    rw [← he.1 rfl] at hk'
    exact ⟨key, hk, hk'⟩
  · obtain ⟨key, key', hk, hk', he⟩ := htype h2 h5
    exact ⟨key, key', hk, hk', fun h => absurd (he.2 h) (by decide)⟩
  · obtain ⟨key, key', hk, hk', he⟩ := hmethod h3 h10
    rw [← (he.1 rfl).2] at hk'
    exact ⟨key, hk, hk'⟩
  · obtain ⟨key, key', hk, hk', he⟩ := hfield h11 h12
    rw [← (he.1 rfl).2] at hk'
    exact ⟨key, hk, hk'⟩

/-! ## Types and their definitions -/

/-- Requests for types that have the same key ask for the same definition. -/
theorem type_of_freshType {m : Metadata} (hm : m.Indexed) {type type' : TypeDefId}
    {args args' : List Sig} {t t' : TypeInstance} {key : String}
    (h : m.freshType type args = .ok t) (h' : m.freshType type' args' = .ok t')
    (hk : t.key = .ok key) (hk' : t'.key = .ok key) : type = type' := by
  obtain ⟨d, hd, rfl⟩ := Metadata.freshType_ok h
  obtain ⟨d', hd', rfl⟩ := Metadata.freshType_ok h'
  exact hm.id_of_fullName hd hd' (Key.name_of_ofType hk hk')

theorem Answers.typeInstance {type : TypeDefId} {args : List Sig} {id : TypeInstanceId}
    (h : Answers calls i (.resolveType type args) (.published id)) :
    ∃ t, (after calls).catalog.typeInstance id = .ok t ∧ t.type.id = type := by
  have hc := coherent_after calls
  obtain ⟨u, hp, hg⟩ := h.performed
  cases hp with
  | type hf _ hk he =>
    obtain ⟨t, ht⟩ := Registry.exists_entry_of_key (hg.catalog.typeKey he.getElem?_keys)
    refine ⟨t, Catalog.typeInstance_eq_ok_iff.2 (Registry.get?_of_entry ht), ?_⟩
    have hx := hc.typeEntry ht
    have hf' := Metadata.freshType_mono (grows_before calls i).metadata hf
    exact type_of_freshType hc.indexed hx.fresh hf' hx.key hk

/-- A record of a type belongs to the definition that was asked for, whatever the names and the
arguments are; so different definitions share no record. -/
theorem type_of_resolveType (calls : List Call) {i : Nat} {type : TypeDefId} {args : List Sig}
    {id : TypeInstanceId} (h : Answers calls i (.resolveType type args) (.published id)) :
    (∃ t, (after calls).catalog.typeInstance id = .ok t ∧ t.type.id = type) ∧
      ∀ {j : Nat} {type' : TypeDefId} {args' : List Sig},
        Answers calls j (.resolveType type' args') (.published id) → type' = type := by
  obtain ⟨t, ht, hid⟩ := h.typeInstance
  refine ⟨⟨t, ht, hid⟩, ?_⟩
  intro j type' args' h'
  obtain ⟨t', ht', hid'⟩ := h'.typeInstance
  rw [ht] at ht'
  cases ht'
  rw [← hid', hid]

theorem type_of_resolveType_box :
    ∃ t, (after boxCalls).catalog.typeInstance 1 = .ok t ∧ t.type.id = 1 := by
  have h : Answers boxCalls 5 (.resolveType 1 []) (.published 1) := ⟨rfl, _, rfl⟩
  exact (type_of_resolveType boxCalls h).1

end Session
end Monomorph
