import Monomorph.Metadata.Definitions
import Monomorph.Proofs.Basic

/-!
# Monomorph.Proofs.Metadata.Growth

How definitions are added.

* `Indexed`: the number of a definition is its position, and no full name comes twice. Every
  addition keeps this (`indexed_addType`, `indexed_addMethod`, `indexed_addField`).
* `Grows`: nothing is taken away. Method definitions stay as they are, and type definitions gain
  methods and fields only, behind those they have.
-/

namespace Monomorph

/-- A type definition and the same definition with methods and fields added. -/
structure TypeDef.Extends (t u : TypeDef) : Prop where
  toRef : u.toRef = t.toRef
  valueType : u.valueType = t.valueType
  genericParams : u.genericParams = t.genericParams
  methods : t.methods <+: u.methods
  fields : t.fields <+: u.fields

namespace TypeDef.Extends

theorem refl (t : TypeDef) : t.Extends t :=
  ⟨rfl, rfl, rfl, List.prefix_rfl, List.prefix_rfl⟩

theorem trans {t u v : TypeDef} (h : t.Extends u) (k : u.Extends v) : t.Extends v :=
  ⟨k.toRef.trans h.toRef, k.valueType.trans h.valueType, k.genericParams.trans h.genericParams,
    h.methods.trans k.methods, h.fields.trans k.fields⟩

theorem fullName {t u : TypeDef} (h : t.Extends u) : u.fullName = t.fullName := by
  rw [← toRef_fullName, h.toRef, toRef_fullName]

end TypeDef.Extends

namespace Metadata

theorem typeDef_eq_ok_iff {m : Metadata} {id : TypeDefId} {t : TypeDef} :
    m.typeDef id = .ok t ↔ m.types[id]? = some t := by
  rw [typeDef]
  cases m.types[id]? with
  | none => simp
  | some u => simp

theorem methodDef_eq_ok_iff {m : Metadata} {id : MethodDefId} {d : MethodDef} :
    m.methodDef id = .ok d ↔ m.methods[id]? = some d := by
  rw [methodDef]
  cases m.methods[id]? with
  | none => simp
  | some u => simp

/-! ## What an addition does -/

/-- The type definitions with one of them changed. -/
def withType (m : Metadata) (id : TypeDefId) (f : TypeDef → TypeDef) : Metadata :=
  { m with types := m.types.modify id f }

theorem addType_ok {m n : Metadata} {nameSpace name : String} {genericParams : Nat}
    {corlib valueType : Bool} {id : TypeDefId}
    (h : m.addType nameSpace name genericParams corlib valueType = .ok (n, id)) :
    m.findType? (qualifiedName nameSpace name) = none ∧ id = m.types.length ∧
      n = { m with types :=
        m.types ++ [⟨m.types.length, nameSpace, name, corlib, valueType, genericParams, [], []⟩] }
    := by
  simp only [addType] at h
  split at h
  · cases h
  · rename_i hf
    cases h
    exact ⟨hf, rfl, rfl⟩

theorem addMethod_ok {m n : Metadata} {type : TypeDefId} {name : String} {sig : MethodSig}
    {attributes : MethodAttributes} {body : Option MethodBody} {id : MethodDefId}
    (h : m.addMethod type name sig attributes body = .ok (n, id)) :
    id = m.methods.length ∧
      n = { m.withType type fun t => { t with methods := t.methods ++ [m.methods.length] } with
        methods := m.methods ++ [⟨m.methods.length, type, name, sig, attributes, body⟩] } := by
  rw [addMethod] at h
  obtain ⟨t, _, h⟩ := exists_of_bind_ok h
  cases h
  exact ⟨rfl, rfl⟩

theorem addField_ok {m n : Metadata} {type : TypeDefId} {field : FieldDef}
    (h : m.addField type field = .ok n) :
    n = m.withType type fun t => { t with fields := t.fields ++ [field] } := by
  rw [addField] at h
  obtain ⟨t, _, h⟩ := exists_of_bind_ok h
  cases h
  rfl

/-! ## Growing -/

/-- The second metadata holds all that the first does. -/
structure Grows (m n : Metadata) : Prop where
  types : ∀ {id : TypeDefId} {t : TypeDef}, m.types[id]? = some t →
    ∃ u, n.types[id]? = some u ∧ t.Extends u
  methods : m.methods <+: n.methods

theorem Grows.refl (m : Metadata) : m.Grows m :=
  ⟨fun {_ t} h => ⟨t, h, .refl t⟩, List.prefix_rfl⟩

theorem Grows.trans {m n o : Metadata} (h : m.Grows n) (k : n.Grows o) : m.Grows o := by
  refine ⟨?_, h.methods.trans k.methods⟩
  intro id t ht
  obtain ⟨u, hu, htu⟩ := h.types ht
  obtain ⟨v, hv, huv⟩ := k.types hu
  exact ⟨v, hv, htu.trans huv⟩

theorem Grows.typeDef {m n : Metadata} (h : m.Grows n) {id : TypeDefId} {t : TypeDef}
    (ht : m.typeDef id = .ok t) : ∃ u, n.typeDef id = .ok u ∧ t.Extends u := by
  obtain ⟨u, hu, hx⟩ := h.types (typeDef_eq_ok_iff.1 ht)
  exact ⟨u, typeDef_eq_ok_iff.2 hu, hx⟩

theorem Grows.methodDef {m n : Metadata} (h : m.Grows n) {id : MethodDefId} {d : MethodDef}
    (hd : m.methodDef id = .ok d) : n.methodDef id = .ok d := by
  rw [methodDef_eq_ok_iff] at hd ⊢
  exact getElem?_mono h.methods hd

theorem getElem?_withType (m : Metadata) (type : TypeDefId) (f : TypeDef → TypeDef) (id : Nat) :
    (m.withType type f).types[id]? = m.types[id]?.map fun t => if type = id then f t else t := by
  rw [withType, List.getElem?_modify]
  rfl

/-- A change of one definition does not show in what it keeps. -/
theorem map_withType {α : Type} (m : Metadata) (type : TypeDefId) {f : TypeDef → TypeDef}
    {g : TypeDef → α} (hf : ∀ t, g (f t) = g t) :
    (m.withType type f).types.map g = m.types.map g := by
  apply List.ext_getElem?
  intro k
  rw [List.getElem?_map, List.getElem?_map, getElem?_withType, Option.map_map]
  congr 1
  funext t
  show g (if type = k then f t else t) = g t
  split
  · exact hf t
  · rfl

theorem grows_withType (m : Metadata) (type : TypeDefId) {f : TypeDef → TypeDef}
    (hf : ∀ t : TypeDef, t.Extends (f t)) : m.Grows (m.withType type f) := by
  refine ⟨?_, List.prefix_rfl⟩
  intro id t ht
  refine ⟨if type = id then f t else t, ?_, ?_⟩
  · rw [getElem?_withType, ht]
    rfl
  · split
    · exact hf t
    · exact .refl t

theorem grows_addType {m n : Metadata} {nameSpace name : String} {genericParams : Nat}
    {corlib valueType : Bool} {id : TypeDefId}
    (h : m.addType nameSpace name genericParams corlib valueType = .ok (n, id)) : m.Grows n := by
  obtain ⟨_, _, rfl⟩ := addType_ok h
  refine ⟨?_, List.prefix_rfl⟩
  intro id t ht
  exact ⟨t, getElem?_mono (List.prefix_append _ _) ht, .refl t⟩

theorem extends_addMethod (t : TypeDef) (id : MethodDefId) :
    t.Extends { t with methods := t.methods ++ [id] } :=
  ⟨rfl, rfl, rfl, List.prefix_append _ _, List.prefix_rfl⟩

theorem extends_addField (t : TypeDef) (field : FieldDef) :
    t.Extends { t with fields := t.fields ++ [field] } :=
  ⟨rfl, rfl, rfl, List.prefix_rfl, List.prefix_append _ _⟩

theorem grows_addMethod {m n : Metadata} {type : TypeDefId} {name : String} {sig : MethodSig}
    {attributes : MethodAttributes} {body : Option MethodBody} {id : MethodDefId}
    (h : m.addMethod type name sig attributes body = .ok (n, id)) : m.Grows n := by
  obtain ⟨_, rfl⟩ := addMethod_ok h
  exact ⟨(m.grows_withType type fun t => extends_addMethod t _).types, List.prefix_append _ _⟩

theorem grows_addField {m n : Metadata} {type : TypeDefId} {field : FieldDef}
    (h : m.addField type field = .ok n) : m.Grows n := by
  rw [addField_ok h]
  exact m.grows_withType type fun t => extends_addField t field

/-! ## Positions and names -/

/-- Definitions are numbered by their positions, and types have different full names. -/
structure Indexed (m : Metadata) : Prop where
  typeId : ∀ {k : Nat} {t : TypeDef}, m.types[k]? = some t → t.id = k
  methodId : ∀ {k : Nat} {d : MethodDef}, m.methods[k]? = some d → d.id = k
  fullNames : (m.types.map TypeDef.fullName).Nodup

theorem indexed_empty : (∅ : Metadata).Indexed := by
  refine ⟨?_, ?_, List.nodup_nil⟩
  · intro k t h
    cases h
  · intro k d h
    cases h

theorem findType?_eq_none_iff {m : Metadata} {fullName : String} :
    m.findType? fullName = none ↔ fullName ∉ m.types.map TypeDef.fullName := by
  rw [findType?, List.findIdx?_eq_none_iff, List.mem_map]
  constructor
  · rintro h ⟨t, ht, rfl⟩
    have he := h t ht
    rw [beq_self_eq_true] at he
    cases he
  · intro h t ht
    exact beq_false_of_ne fun e => h ⟨t, ht, e⟩

theorem indexed_addType {m n : Metadata} (hm : m.Indexed) {nameSpace name : String}
    {genericParams : Nat} {corlib valueType : Bool} {id : TypeDefId}
    (h : m.addType nameSpace name genericParams corlib valueType = .ok (n, id)) : n.Indexed := by
  obtain ⟨hf, _, rfl⟩ := addType_ok h
  refine ⟨?_, hm.methodId, ?_⟩
  · intro k t ht
    rcases getElem?_concat ht with ht | ⟨rfl, rfl⟩
    · exact hm.typeId ht
    · rfl
  · rw [List.map_append]
    exact nodup_concat hm.fullNames (findType?_eq_none_iff.1 hf)

theorem indexed_withType {m : Metadata} (hm : m.Indexed) (type : TypeDefId)
    {f : TypeDef → TypeDef} (hf : ∀ t : TypeDef, t.Extends (f t)) : (m.withType type f).Indexed := by
  have hx : ∀ {k : Nat} {t : TypeDef}, (m.withType type f).types[k]? = some t →
      ∃ u : TypeDef, m.types[k]? = some u ∧ u.Extends t := by
    intro k t ht
    rw [getElem?_withType, Option.map_eq_some_iff] at ht
    obtain ⟨u, hu, rfl⟩ := ht
    refine ⟨u, hu, ?_⟩
    split
    · exact hf u
    · exact .refl u
  refine ⟨?_, hm.methodId, ?_⟩
  · intro k t ht
    obtain ⟨u, hu, hut⟩ := hx ht
    rw [← TypeDef.toRef_id, hut.toRef, TypeDef.toRef_id]
    exact hm.typeId hu
  · rw [map_withType m type fun t => (hf t).fullName]
    exact hm.fullNames

theorem indexed_addMethod {m n : Metadata} (hm : m.Indexed) {type : TypeDefId} {name : String}
    {sig : MethodSig} {attributes : MethodAttributes} {body : Option MethodBody}
    {id : MethodDefId} (h : m.addMethod type name sig attributes body = .ok (n, id)) :
    n.Indexed := by
  obtain ⟨_, rfl⟩ := addMethod_ok h
  have hw := indexed_withType hm type fun t => extends_addMethod t m.methods.length
  refine ⟨hw.typeId, ?_, hw.fullNames⟩
  intro k d hd
  rcases getElem?_concat hd with hd | ⟨rfl, rfl⟩
  · exact hm.methodId hd
  · rfl

theorem indexed_addField {m n : Metadata} (hm : m.Indexed) {type : TypeDefId} {field : FieldDef}
    (h : m.addField type field = .ok n) : n.Indexed := by
  rw [addField_ok h]
  exact indexed_withType hm type fun t => extends_addField t field

/-- A full name belongs to one definition. -/
theorem Indexed.id_of_fullName {m : Metadata} (hm : m.Indexed) {i j : TypeDefId} {t u : TypeDef}
    (ht : m.typeDef i = .ok t) (hu : m.typeDef j = .ok u) (h : t.fullName = u.fullName) :
    i = j := by
  rw [typeDef_eq_ok_iff] at ht hu
  have hi : (m.types.map TypeDef.fullName)[i]? = some t.fullName := by
    rw [List.getElem?_map, ht]
    rfl
  have hj : (m.types.map TypeDef.fullName)[j]? = some t.fullName := by
    rw [List.getElem?_map, hu, h]
    rfl
  exact (position_inj hm.fullNames hi hj).2 rfl

end Metadata
end Monomorph
