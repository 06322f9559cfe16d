import Monomorph.Catalog
import Monomorph.Proofs.Registry

/-!
# Monomorph.Proofs.Catalog.Growth

A catalog only grows: a record stays under its number and its key. A type or a field stays as it
is, and of a method only the overrides and the two marks may change, so that
`MethodInstance.pristine`, the record as it was published, stays the same.
-/

namespace Monomorph

open Registry (Entered)

/-- The record without overrides and marks. -/
def MethodInstance.pristine (i : MethodInstance) : MethodInstance :=
  { i with overrides := [], processed := false, skipped := false }

theorem MethodInstance.definition_of_pristine {i j : MethodInstance}
    (h : i.pristine = j.pristine) : i.definition = j.definition := by
  show i.pristine.definition = j.pristine.definition
  rw [h]

theorem MethodInstance.args_of_pristine {i j : MethodInstance} (h : i.pristine = j.pristine) :
    i.args = j.args := by
  show i.pristine.args = j.pristine.args
  rw [h]

theorem MethodInstance.concretizedKey_of_pristine {i j : MethodInstance}
    (h : i.pristine = j.pristine) : i.concretizedKey = j.concretizedKey := by
  show i.pristine.concretizedKey = j.pristine.concretizedKey
  rw [h]

theorem MethodInstance.pristine_addOverride (i : MethodInstance) (target : MethodInstanceId) :
    (i.addOverride target).1.pristine = i.pristine := by
  rw [addOverride]
  split
  · rfl
  · rfl

namespace Catalog

variable {c d e : Catalog}

theorem typeInstance_eq_ok_iff {id : TypeInstanceId} {i : TypeInstance} :
    c.typeInstance id = .ok i ↔ c.types.get? id = some i := by
  rw [typeInstance]
  cases c.types.get? id with
  | none => simp
  | some j => simp

theorem methodInstance_eq_ok_iff {id : MethodInstanceId} {i : MethodInstance} :
    c.methodInstance id = .ok i ↔ c.methods.get? id = some i := by
  rw [methodInstance]
  cases c.methods.get? id with
  | none => simp
  | some j => simp

theorem fieldInstance_eq_ok_iff {id : FieldInstanceId} {i : FieldInstance} :
    c.fieldInstance id = .ok i ↔ c.fields.get? id = some i := by
  rw [fieldInstance]
  cases c.fields.get? id with
  | none => simp
  | some j => simp

/-- The second catalog holds all that the first does. -/
structure Grows (c d : Catalog) : Prop where
  types : c.types.entries <+: d.types.entries
  methods : ∀ {id : MethodInstanceId} {key : TypeInstanceId × String} {i : MethodInstance},
    c.methods.entries[id]? = some (key, i) →
      ∃ j, d.methods.entries[id]? = some (key, j) ∧ j.pristine = i.pristine
  fields : c.fields.entries <+: d.fields.entries

theorem Grows.refl (c : Catalog) : c.Grows c :=
  ⟨List.prefix_rfl, fun {_ _ i} h => ⟨i, h, rfl⟩, List.prefix_rfl⟩

theorem Grows.trans (h : c.Grows d) (k : d.Grows e) : c.Grows e := by
  refine ⟨h.types.trans k.types, ?_, h.fields.trans k.fields⟩
  intro id key i hi
  obtain ⟨j, hj, hij⟩ := h.methods hi
  obtain ⟨l, hl, hjl⟩ := k.methods hj
  exact ⟨l, hl, hjl.trans hij⟩

theorem Grows.typeInstance (h : c.Grows d) {id : TypeInstanceId} {i : TypeInstance}
    (hi : c.typeInstance id = .ok i) : d.typeInstance id = .ok i := by
  rw [typeInstance_eq_ok_iff] at hi ⊢
  obtain ⟨key, he⟩ := Registry.exists_entry_of_get? hi
  exact Registry.get?_of_entry (getElem?_mono h.types he)

theorem Grows.typeKey (h : c.Grows d) {id : TypeInstanceId} {key : String}
    (hk : c.types.keys[id]? = some key) : d.types.keys[id]? = some key :=
  Registry.getElem?_keys_mono h.types hk

theorem Grows.methodKey (h : c.Grows d) {id : MethodInstanceId} {key : TypeInstanceId × String}
    (hk : c.methods.keys[id]? = some key) : d.methods.keys[id]? = some key := by
  obtain ⟨i, hi⟩ := Registry.exists_entry_of_key hk
  obtain ⟨j, hj, _⟩ := h.methods hi
  exact Registry.key_of_entry hj

theorem Grows.fieldKey (h : c.Grows d) {id : FieldInstanceId} {key : TypeInstanceId × String}
    (hk : c.fields.keys[id]? = some key) : d.fields.keys[id]? = some key :=
  Registry.getElem?_keys_mono h.fields hk

theorem grows_types {key : String} {i : TypeInstance} {r : Registry String TypeInstance}
    {id : Nat} (h : Entered c.types key i r id) : c.Grows { c with types := r } :=
  ⟨h.entries_mono, (Grows.refl c).methods, List.prefix_rfl⟩

theorem grows_fields {key : TypeInstanceId × String} {i : FieldInstance}
    {r : Registry (TypeInstanceId × String) FieldInstance} {id : Nat}
    (h : Entered c.fields key i r id) : c.Grows { c with fields := r } :=
  ⟨List.prefix_rfl, (Grows.refl c).methods, h.entries_mono⟩

theorem grows_methods {key : TypeInstanceId × String} {i : MethodInstance}
    {r : Registry (TypeInstanceId × String) MethodInstance} {id : Nat}
    (h : Entered c.methods key i r id) : c.Grows { c with methods := r } :=
  ⟨List.prefix_rfl, fun {_ _ j} hj => ⟨j, getElem?_mono h.entries_mono hj, rfl⟩,
    List.prefix_rfl⟩

theorem pristine_override {id target : MethodInstanceId} {i : MethodInstance}
    (hi : c.methodInstance id = .ok i) :
    ∀ j, c.methodInstance id = .ok j → (i.addOverride target).1.pristine = j.pristine := by
  intro j hj
  rw [hi] at hj
  cases hj
  exact i.pristine_addOverride target

/-- An entry after a change in place comes from the entry before. -/
theorem entry_of_modifyMethod {id : MethodInstanceId} {f : MethodInstance → MethodInstance}
    {k : Nat} {key : TypeInstanceId × String} {j : MethodInstance}
    (h : (c.modifyMethod id f).methods.entries[k]? = some (key, j))
    (hf : ∀ i, c.methodInstance id = .ok i → (f i).pristine = i.pristine) :
    ∃ i, c.methods.entries[k]? = some (key, i) ∧ j.pristine = i.pristine := by
  rw [modifyMethod, Registry.getElem?_entries_modify, Option.map_eq_some_iff] at h
  obtain ⟨⟨key', i⟩, hi, he⟩ := h
  split at he
  · rename_i hk
    cases he
    refine ⟨i, hi, hf i ?_⟩
    rw [methodInstance_eq_ok_iff, hk]
    exact Registry.get?_of_entry hi
  · cases he
    exact ⟨j, hi, rfl⟩

theorem grows_modifyMethod {id : MethodInstanceId} {f : MethodInstance → MethodInstance}
    (hf : ∀ i, c.methodInstance id = .ok i → (f i).pristine = i.pristine) :
    c.Grows (c.modifyMethod id f) := by
  refine ⟨List.prefix_rfl, ?_, List.prefix_rfl⟩
  intro k key i hi
  refine ⟨if id = k then f i else i, ?_, ?_⟩
  · rw [modifyMethod, Registry.getElem?_entries_modify, hi, Option.map_some]
    split
    · rfl
    · rfl
  · split
    · rename_i hk
      apply hf
      rw [methodInstance_eq_ok_iff, hk]
      exact Registry.get?_of_entry hi
    · rfl

end Catalog
end Monomorph
