import Monomorph.Proofs.Session.Basic

/-!
# Monomorph.Proofs.Session.Coherence

The invariant of runs. Every record is the one that a request for its own definition and arguments
would make now, it stands under its own key, and no key comes twice (`Coherent`).

* `Performed.typeEntry`, `Performed.methodEntry`, `Performed.fieldEntry`: where an entry comes
  from; a call adds an entry only as the answer to a request with that key.
* `coherent_after`: the invariant holds after every run.
-/

namespace Monomorph
namespace Session

variable {s t : Session} {call : Call} {answer : Answer}

/-! ## Where an entry comes from -/

theorem Performed.typeEntry (h : Performed s call answer t) {id : TypeInstanceId} {key : String}
    {i : TypeInstance} (hi : t.catalog.types.entries[id]? = some (key, i)) :
    s.catalog.types.entries[id]? = some (key, i) ∨
      ∃ type args, call = .resolveType type args ∧ answer = .published id ∧
        s.catalog.types.find? key = none ∧ s.metadata.freshType type args = .ok i ∧
        i.isConcrete = .ok true ∧ i.key = .ok key := by
  cases h with
  | type hf hb hk he =>
    rcases he.entry hi with hi | ⟨hn, hki, rfl⟩
    · exact .inl hi
    · cases hki
      exact .inr ⟨_, _, rfl, rfl, hn, hf, hb, hk⟩
  | _ => exact .inl hi

/-- The record of an old entry may have been changed in its overrides and marks. -/
theorem Performed.methodEntry (h : Performed s call answer t) {id : MethodInstanceId}
    {owner : TypeInstanceId} {key : String} {i : MethodInstance}
    (hi : t.catalog.methods.entries[id]? = some ((owner, key), i)) :
    (∃ j, s.catalog.methods.entries[id]? = some ((owner, key), j) ∧ i.pristine = j.pristine) ∨
      ∃ method args, call = .resolveMethod owner method args ∧ answer = .published id ∧
        s.catalog.methods.find? (owner, key) = none ∧ Sig.anyHasParam args = false ∧
        s.catalog.freshMethod s.metadata owner method args = .ok i ∧
        i.concretizedKey = .ok key := by
  cases h with
  | method hp hf hk he =>
    rcases he.entry hi with hi | ⟨hn, hki, rfl⟩
    · exact .inl ⟨i, hi, rfl⟩
    · cases hki
      exact .inr ⟨_, _, rfl, rfl, hn, hp, hf, hk⟩
  | override hj => exact .inl (Catalog.entry_of_modifyMethod hi (Catalog.pristine_override hj))
  | processed _ => exact .inl (Catalog.entry_of_modifyMethod hi fun _ _ => rfl)
  | skipped _ => exact .inl (Catalog.entry_of_modifyMethod hi fun _ _ => rfl)
  | _ => exact .inl ⟨i, hi, rfl⟩

theorem Performed.fieldEntry (h : Performed s call answer t) {id : FieldInstanceId}
    {owner : TypeInstanceId} {key : String} {i : FieldInstance}
    (hi : t.catalog.fields.entries[id]? = some ((owner, key), i)) :
    s.catalog.fields.entries[id]? = some ((owner, key), i) ∨
      ∃ index, call = .resolveField owner index ∧ answer = .published id ∧
        s.catalog.fields.find? (owner, key) = none ∧
        s.catalog.freshField s.metadata owner index = .ok i ∧ i.key = key := by
  cases h with
  | field hf he =>
    rcases he.entry hi with hi | ⟨hn, hki, rfl⟩
    · exact .inl hi
    · cases hki
      exact .inr ⟨_, rfl, rfl, hn, hf, rfl⟩
  | _ => exact .inl hi

/-! ## The invariant -/

/-- The record is what a request for its own type makes, and has that key. -/
structure TypeEntry (s : Session) (key : String) (i : TypeInstance) : Prop where
  fresh : s.metadata.freshType i.type.id i.args = .ok i
  isConcrete : i.isConcrete = .ok true
  key : i.key = .ok key

/-- Up to overrides and marks the record is what a request for its own method makes, and has that
key. -/
structure MethodEntry (s : Session) (owner : TypeInstanceId) (key : String) (i : MethodInstance) :
    Prop where
  fresh : s.catalog.freshMethod s.metadata owner i.definition.id i.args = .ok i.pristine
  noParam : Sig.anyHasParam i.args = false
  key : i.concretizedKey = .ok key

/-- The record is what a request for a field makes, and has that key. -/
structure FieldEntry (s : Session) (owner : TypeInstanceId) (key : String) (i : FieldInstance) :
    Prop where
  fresh : ∃ index, s.catalog.freshField s.metadata owner index = .ok i
  key : i.key = key

/-- Definitions are numbered, and every record stands once, under its own key. -/
structure Coherent (s : Session) : Prop where
  indexed : s.metadata.Indexed
  typeKeys : s.catalog.types.keys.Nodup
  methodKeys : s.catalog.methods.keys.Nodup
  fieldKeys : s.catalog.fields.keys.Nodup
  typeEntry : ∀ {id : TypeInstanceId} {key : String} {i : TypeInstance},
    s.catalog.types.entries[id]? = some (key, i) → s.TypeEntry key i
  methodEntry : ∀ {id : MethodInstanceId} {owner : TypeInstanceId} {key : String}
    {i : MethodInstance},
    s.catalog.methods.entries[id]? = some ((owner, key), i) → s.MethodEntry owner key i
  fieldEntry : ∀ {id : FieldInstanceId} {owner : TypeInstanceId} {key : String}
    {i : FieldInstance},
    s.catalog.fields.entries[id]? = some ((owner, key), i) → s.FieldEntry owner key i

theorem TypeEntry.mono (hg : s.Grows t) {key : String} {i : TypeInstance}
    (h : s.TypeEntry key i) : t.TypeEntry key i :=
  ⟨Metadata.freshType_mono hg.metadata h.fresh, h.isConcrete, h.key⟩

theorem MethodEntry.mono (hg : s.Grows t) {owner : TypeInstanceId} {key : String}
    {i : MethodInstance} (h : s.MethodEntry owner key i) : t.MethodEntry owner key i :=
  ⟨Catalog.freshMethod_mono hg.catalog hg.metadata h.fresh, h.noParam, h.key⟩

theorem FieldEntry.mono (hg : s.Grows t) {owner : TypeInstanceId} {key : String}
    {i : FieldInstance} (h : s.FieldEntry owner key i) : t.FieldEntry owner key i := by
  obtain ⟨index, hi⟩ := h.fresh
  exact ⟨⟨index, Catalog.freshField_mono hg.catalog hg.metadata hi⟩, h.key⟩

/-- Overrides and marks do not matter. -/
theorem MethodEntry.of_pristine {owner : TypeInstanceId} {key : String} {i j : MethodInstance}
    (h : s.MethodEntry owner key j) (hij : i.pristine = j.pristine) :
    s.MethodEntry owner key i := by
  have hd := MethodInstance.definition_of_pristine hij
  have ha := MethodInstance.args_of_pristine hij
  refine ⟨?_, ?_, ?_⟩
  · rw [hd, ha, hij]
    exact h.fresh
  · rw [ha]
    exact h.noParam
  · rw [MethodInstance.concretizedKey_of_pristine hij]
    exact h.key

theorem MethodEntry.owner {owner : TypeInstanceId} {key : String} {i : MethodInstance}
    (h : s.MethodEntry owner key i) : s.catalog.typeInstance owner = .ok i.owner := by
  obtain ⟨o, d, c, ho, _, hi⟩ := Catalog.freshMethod_ok h.fresh
  have : i.owner = o := congrArg MethodInstance.owner hi
  rw [this]
  exact ho

namespace Coherent

theorem typeEntry_of_instance (h : s.Coherent) {id : TypeInstanceId} {i : TypeInstance}
    (hi : s.catalog.typeInstance id = .ok i) : ∃ key, s.TypeEntry key i := by
  obtain ⟨key, he⟩ := Registry.exists_entry_of_get? (Catalog.typeInstance_eq_ok_iff.1 hi)
  exact ⟨key, h.typeEntry he⟩

theorem methodEntry_of_instance (h : s.Coherent) {id : MethodInstanceId} {i : MethodInstance}
    (hi : s.catalog.methodInstance id = .ok i) : ∃ owner key, s.MethodEntry owner key i := by
  obtain ⟨key, he⟩ := Registry.exists_entry_of_get? (Catalog.methodInstance_eq_ok_iff.1 hi)
  exact ⟨key.1, key.2, h.methodEntry he⟩

theorem fieldEntry_of_instance (h : s.Coherent) {id : FieldInstanceId} {i : FieldInstance}
    (hi : s.catalog.fieldInstance id = .ok i) : ∃ owner key, s.FieldEntry owner key i := by
  obtain ⟨key, he⟩ := Registry.exists_entry_of_get? (Catalog.fieldInstance_eq_ok_iff.1 hi)
  exact ⟨key.1, key.2, h.fieldEntry he⟩

end Coherent

/-! ## The invariant is kept -/

theorem coherent_start : Coherent start := by
  refine ⟨Metadata.indexed_empty, List.nodup_nil, List.nodup_nil, List.nodup_nil, ?_, ?_, ?_⟩
  · intro id key i h
    cases h
  · intro id owner key i h
    cases h
  · intro id owner key i h
    cases h

theorem Performed.typeKeys (h : Performed s call answer t) (hn : s.catalog.types.keys.Nodup) :
    t.catalog.types.keys.Nodup := by
  cases h with
  | type _ _ _ he => exact he.nodup hn
  | _ => exact hn

theorem keys_modifyMethod (c : Catalog) (id : MethodInstanceId)
    (f : MethodInstance → MethodInstance) : (c.modifyMethod id f).methods.keys = c.methods.keys :=
  Registry.keys_modify _ _ _

theorem Performed.methodKeys (h : Performed s call answer t) (hn : s.catalog.methods.keys.Nodup) :
    t.catalog.methods.keys.Nodup := by
  cases h with
  | method _ _ _ he => exact he.nodup hn
  | override _ =>
    rw [keys_modifyMethod]
    exact hn
  | processed _ =>
    rw [keys_modifyMethod]
    exact hn
  | skipped _ =>
    rw [keys_modifyMethod]
    exact hn
  | _ => exact hn

theorem Performed.fieldKeys (h : Performed s call answer t) (hn : s.catalog.fields.keys.Nodup) :
    t.catalog.fields.keys.Nodup := by
  cases h with
  | field _ he => exact he.nodup hn
  | _ => exact hn

theorem typeEntry_of_fresh (hm : s.metadata.Indexed) {type : TypeDefId} {args : List Sig}
    {i : TypeInstance} {key : String} (hi : s.metadata.freshType type args = .ok i)
    (hb : i.isConcrete = .ok true) (hk : i.key = .ok key) : s.TypeEntry key i := by
  refine ⟨?_, hb, hk⟩
  obtain ⟨d, hd, rfl⟩ := Metadata.freshType_ok hi
  have ht : d.id = type := hm.typeId (Metadata.typeDef_eq_ok_iff.1 hd)
  show s.metadata.freshType d.id args = _
  rw [ht]
  exact hi

theorem definition_of_freshMethod (hm : s.metadata.Indexed) {owner : TypeInstanceId}
    {method : MethodDefId} {args : List Sig} {i : MethodInstance}
    (hi : s.catalog.freshMethod s.metadata owner method args = .ok i) :
    i.definition.id = method := by
  obtain ⟨o, d, c, _, hd, rfl⟩ := Catalog.freshMethod_ok hi
  exact hm.methodId (Metadata.methodDef_eq_ok_iff.1 hd)

theorem methodEntry_of_fresh (hm : s.metadata.Indexed) {owner : TypeInstanceId}
    {method : MethodDefId} {args : List Sig} {i : MethodInstance} {key : String}
    (hi : s.catalog.freshMethod s.metadata owner method args = .ok i)
    (hp : Sig.anyHasParam args = false) (hk : i.concretizedKey = .ok key) :
    s.MethodEntry owner key i := by
  have ht := definition_of_freshMethod hm hi
  obtain ⟨o, d, c, _, _, rfl⟩ := Catalog.freshMethod_ok hi
  refine ⟨?_, hp, hk⟩
  rw [ht]
  exact hi

theorem Performed.coherent (h : Performed s call answer t) (hc : s.Coherent) : t.Coherent := by
  refine ⟨h.indexed hc.indexed, h.typeKeys hc.typeKeys, h.methodKeys hc.methodKeys,
    h.fieldKeys hc.fieldKeys, ?_, ?_, ?_⟩
  · intro id key i hi
    rcases h.typeEntry hi with hi | ⟨type, args, _, _, _, hf, hb, hk⟩
    · exact (hc.typeEntry hi).mono h.grows
    · exact (typeEntry_of_fresh hc.indexed hf hb hk).mono h.grows
  · intro id owner key i hi
    rcases h.methodEntry hi with ⟨j, hj, hij⟩ | ⟨method, args, _, _, _, hp, hf, hk⟩
    · exact ((hc.methodEntry hj).of_pristine hij).mono h.grows
    · exact (methodEntry_of_fresh hc.indexed hf hp hk).mono h.grows
  · intro id owner key i hi
    rcases h.fieldEntry hi with hi | ⟨index, _, _, _, hf, hk⟩
    · exact (hc.fieldEntry hi).mono h.grows
    · exact FieldEntry.mono h.grows ⟨⟨index, hf⟩, hk⟩

/-- The invariant holds after every run. -/
theorem coherent_after (calls : List Call) : (after calls).Coherent :=
  after_induct coherent_start (fun hc h => h.coherent hc) calls

end Session

/-! ## Requests keep the invariant -/

namespace Catalog

open Session (Coherent)

variable {m : Metadata} {c d : Catalog} {owner : TypeInstanceId}

theorem coherent_resolveType (hc : Coherent ⟨m, c⟩) {type : TypeDefId} {args : List Sig}
    {answer : Option TypeInstanceId} (h : c.resolveType m type args = .ok (d, answer)) :
    Coherent ⟨m, d⟩ := by
  have hp : Session.perform ⟨m, c⟩ (.resolveType type args) = .ok (⟨m, d⟩, .ofNumber answer) := by
    simp [Session.perform, h, Except.map]
  exact (Session.performed_of_ok hp).coherent hc

theorem coherent_resolveMethod (hc : Coherent ⟨m, c⟩) {method : MethodDefId} {args : List Sig}
    {answer : Option MethodInstanceId} (h : c.resolveMethod m owner method args = .ok (d, answer)) :
    Coherent ⟨m, d⟩ := by
  have hp : Session.perform ⟨m, c⟩ (.resolveMethod owner method args) =
      .ok (⟨m, d⟩, .ofNumber answer) := by
    simp [Session.perform, h, Except.map]
  exact (Session.performed_of_ok hp).coherent hc

theorem coherent_resolveField (hc : Coherent ⟨m, c⟩) {index : Nat} {id : FieldInstanceId}
    (h : c.resolveField m owner index = .ok (d, id)) : Coherent ⟨m, d⟩ := by
  have hp : Session.perform ⟨m, c⟩ (.resolveField owner index) = .ok (⟨m, d⟩, .published id) := by
    simp [Session.perform, h, Except.map]
  exact (Session.performed_of_ok hp).coherent hc

end Catalog
end Monomorph
