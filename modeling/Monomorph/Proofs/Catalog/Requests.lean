import Monomorph.Proofs.Catalog.Growth
import Monomorph.Proofs.Metadata.Growth

/-!
# Monomorph.Proofs.Catalog.Requests

What a request publishes.

A request makes a record from the definitions and, for a method or a field, from the record of its
owner: `Metadata.freshType`, `Catalog.freshMethod`, `Catalog.freshField`. The records of its own
kind do not matter for that; they only decide whether the record is entered under its key.

* `resolveType_ok`, `resolveMethod_ok`, `resolveField_ok`: a request that succeeds enters its fresh
  record, unless an argument mentions a parameter.
* `resolveType_of_find?`, `resolveMethod_of_find?`: a request whose key is there changes nothing.
* `freshType_mono`, `freshMethod_mono`, `freshField_mono`: later on a request makes the same record.
-/

namespace Monomorph

open Registry (Entered)

variable {c c' : Catalog} {m n : Metadata}

/-! ## Fresh records -/

namespace Metadata

/-- The record of a type with arguments. -/
def freshType (m : Metadata) (type : TypeDefId) (args : List Sig) : Except Error TypeInstance := do
  let d ← m.typeDef type
  TypeInstance.make d args

/-- The key of a type with arguments. -/
def typeKey (m : Metadata) (type : TypeDefId) (args : List Sig) : Except Error String := do
  let d ← m.typeDef type
  Key.ofType d.fullName args

end Metadata

namespace Catalog

/-- The record of a method in a published type, with its concrete signature. -/
def freshMethod (c : Catalog) (m : Metadata) (owner : TypeInstanceId) (method : MethodDefId)
    (args : List Sig) : Except Error MethodInstance := do
  let type ← c.typeInstance owner
  let d ← m.methodDef method
  let i ← MethodInstance.make type d args
  i.concretize

/-- The key of a method in a published type. -/
def methodKey (c : Catalog) (m : Metadata) (owner : TypeInstanceId) (method : MethodDefId)
    (args : List Sig) : Except Error String := do
  let i ← c.freshMethod m owner method args
  i.concretizedKey

/-- The record of a field of a published type. -/
def freshField (c : Catalog) (m : Metadata) (owner : TypeInstanceId) (index : Nat) :
    Except Error FieldInstance := do
  let type ← c.typeInstance owner
  let d ← m.typeDef type.type.id
  match d.fields[index]? with
  | none => .error (.unknownField d.fullName ("#" ++ Numeral.decimal index))
  | some field => FieldInstance.make type field

/-- The key of a field of a published type. -/
def fieldKey (c : Catalog) (m : Metadata) (owner : TypeInstanceId) (index : Nat) :
    Except Error String := do
  let i ← c.freshField m owner index
  return i.key

end Catalog

theorem TypeInstance.make_ok {t : TypeDef} {args : List Sig} {i : TypeInstance}
    (h : TypeInstance.make t args = .ok i) : i = ⟨t.toRef, t.valueType, args⟩ := by
  rw [TypeInstance.make] at h
  split at h
  · cases h
    rfl
  · cases h

theorem TypeInstance.length_of_make {t : TypeDef} {args : List Sig} {i : TypeInstance}
    (h : TypeInstance.make t args = .ok i) : args.length = t.genericParams := by
  rw [make] at h
  split at h
  · assumption
  · cases h

theorem MethodInstance.make_ok {owner : TypeInstance} {d : MethodDef} {args : List Sig}
    {i : MethodInstance} (h : MethodInstance.make owner d args = .ok i) :
    i = ⟨owner, d, args, none, [], false, false⟩ := by
  rw [MethodInstance.make] at h
  split at h
  · cases h
  · split at h
    · cases h
    · split at h
      · cases h
      · cases h
        rfl

theorem MethodInstance.concretize_ok {i j : MethodInstance} (h : i.concretize = .ok j) :
    ∃ s, j = { i with concrete := some s } := by
  rw [MethodInstance.concretize] at h
  split at h
  · cases h
  · obtain ⟨s, _, rfl⟩ := exists_of_map_ok h
    exact ⟨s, rfl⟩

/-- The concrete signature is the declared one, each type of it substituted. -/
theorem MethodInstance.concreteSig_ok {i : MethodInstance} {c : ConcreteSig}
    (h : i.concreteSig = .ok c) :
    i.definition.sig.ret.substitute i.binding = .ok c.ret ∧
      i.definition.sig.params.mapM (Sig.substitute i.binding) = .ok c.params ∧
      Sig.substituteList? (some i.binding) i.definition.sig.sentinel = .ok c.sentinel ∧
      Sig.substituteList? (some i.binding) i.declaredLocals = .ok c.locals ∧
      c.receiver = if i.hasThis then some i.owner.receiver else none := by
  obtain ⟨ret, hret, h⟩ := exists_of_bind_ok h
  obtain ⟨params, hparams, h⟩ := exists_of_bind_ok h
  obtain ⟨sentinel, hsentinel, h⟩ := exists_of_bind_ok h
  obtain ⟨locals, hlocals, h⟩ := exists_of_bind_ok h
  cases h
  exact ⟨hret, hparams, hsentinel, hlocals, rfl⟩

theorem MethodInstance.concreteSig_of_ok {i : MethodInstance} {ret : Sig} {params : List Sig}
    {sentinel locals : Option (List Sig)}
    (hr : i.definition.sig.ret.substitute i.binding = .ok ret)
    (hp : i.definition.sig.params.mapM (Sig.substitute i.binding) = .ok params)
    (hs : Sig.substituteList? (some i.binding) i.definition.sig.sentinel = .ok sentinel)
    (hl : Sig.substituteList? (some i.binding) i.declaredLocals = .ok locals) :
    i.concreteSig =
      .ok ⟨if i.hasThis then some i.owner.receiver else none, ret, params, sentinel, locals⟩ := by
  have hr : Sig.substitute? (some i.binding) i.definition.sig.ret = .ok ret := hr
  have hp : Sig.substituteAll? (some i.binding) i.definition.sig.params = .ok params := hp
  simp only [concreteSig, hr, hp, hs, hl]
  rfl

/-- The declared locals are those of the body, if it has any. -/
theorem MethodInstance.declaredLocals_eq_some_iff {i : MethodInstance} {ss : List Sig} :
    i.declaredLocals = some ss ↔
      ∃ b, i.definition.body = some b ∧ b.locals ≠ [] ∧ b.locals = ss := by
  rw [declaredLocals]
  cases i.definition.body with
  | none => simp
  | some b => cases hl : b.locals <;> simp [nonEmpty?, hl]

theorem MethodInstance.substituteList?_ok {b : Binding} {ss? ts? : Option (List Sig)}
    (h : Sig.substituteList? (some b) ss? = .ok ts?) :
    ts?.map List.length = ss?.map List.length ∧
      ∀ t ∈ ts?.getD [], ∃ s ∈ ss?.getD [], s.substitute b = .ok t := by
  cases ss? with
  | none =>
    cases h
    exact ⟨rfl, fun t ht => absurd ht List.not_mem_nil⟩
  | some ss =>
    obtain ⟨ts, hts, rfl⟩ := exists_of_map_ok h
    refine ⟨congrArg some (forall₂_of_mapM_ok hts).length_eq.symm, ?_⟩
    intro t ht
    exact exists_of_mem_mapM_ok hts ht

theorem Metadata.freshType_ok {m : Metadata} {type : TypeDefId} {args : List Sig}
    {i : TypeInstance} (h : m.freshType type args = .ok i) :
    ∃ t, m.typeDef type = .ok t ∧ i = ⟨t.toRef, t.valueType, args⟩ := by
  obtain ⟨t, ht, h⟩ := exists_of_bind_ok h
  exact ⟨t, ht, TypeInstance.make_ok h⟩

theorem Metadata.typeKey_of_freshType {m : Metadata} {type : TypeDefId} {args : List Sig}
    {i : TypeInstance} (h : m.freshType type args = .ok i) : m.typeKey type args = i.key := by
  obtain ⟨t, ht, rfl⟩ := freshType_ok h
  rw [typeKey, ht]
  rfl

namespace Catalog

theorem freshMethod_ok {owner : TypeInstanceId} {method : MethodDefId} {args : List Sig}
    {i : MethodInstance} (h : c.freshMethod m owner method args = .ok i) :
    ∃ t d s, c.typeInstance owner = .ok t ∧ m.methodDef method = .ok d ∧
      i = ⟨t, d, args, some s, [], false, false⟩ := by
  obtain ⟨t, ht, h⟩ := exists_of_bind_ok h
  obtain ⟨d, hd, h⟩ := exists_of_bind_ok h
  obtain ⟨j, hj, h⟩ := exists_of_bind_ok h
  obtain ⟨s, rfl⟩ := MethodInstance.concretize_ok h
  obtain rfl := MethodInstance.make_ok hj
  exact ⟨t, d, s, ht, hd, rfl⟩

/-- A record that a request makes has its concrete signature and belongs to its owner. -/
theorem concrete_of_freshMethod {owner : TypeInstanceId} {method : MethodDefId}
    {args : List Sig} {i : MethodInstance}
    (h : c.freshMethod m owner method args = .ok i) :
    (∃ k, i.concreteSig = .ok k ∧ i.concrete = some k) ∧
      i.definition.declaringType = i.owner.type.id := by
  obtain ⟨t, _, h⟩ := exists_of_bind_ok h
  obtain ⟨d, _, h⟩ := exists_of_bind_ok h
  obtain ⟨j, hj, h⟩ := exists_of_bind_ok h
  have hd : d.declaringType = t.type.id := by
    by_contra hne
    rw [MethodInstance.make, if_pos hne] at hj
    cases hj
  obtain rfl := MethodInstance.make_ok hj
  obtain ⟨k, hk, rfl⟩ := exists_of_map_ok h
  exact ⟨⟨k, hk, rfl⟩, hd⟩

theorem methodKey_of_freshMethod {owner : TypeInstanceId} {method : MethodDefId}
    {args : List Sig} {i : MethodInstance} (h : c.freshMethod m owner method args = .ok i) :
    c.methodKey m owner method args = i.concretizedKey := by
  rw [methodKey, h]
  rfl

theorem freshField_ok {owner : TypeInstanceId} {index : Nat} {i : FieldInstance}
    (h : c.freshField m owner index = .ok i) :
    c.typeInstance owner = .ok i.owner ∧ Key.ofField i.name i.type = .ok i.key := by
  obtain ⟨t, ht, h⟩ := exists_of_bind_ok h
  obtain ⟨d, hd, h⟩ := exists_of_bind_ok h
  split at h
  · cases h
  · obtain ⟨type, _, h⟩ := exists_of_bind_ok h
    obtain ⟨key, hkey, h⟩ := exists_of_bind_ok h
    cases h
    exact ⟨ht, hkey⟩

theorem fieldKey_of_freshField {owner : TypeInstanceId} {index : Nat} {i : FieldInstance}
    (h : c.freshField m owner index = .ok i) : c.fieldKey m owner index = .ok i.key := by
  rw [fieldKey, h]
  rfl

end Catalog

/-! ## Later on -/

theorem TypeInstance.make_extends {t u : TypeDef} (h : t.Extends u) (args : List Sig) :
    TypeInstance.make u args = TypeInstance.make t args := by
  rw [make, make, h.toRef, h.valueType, h.genericParams, h.fullName]

theorem Metadata.freshType_mono {m n : Metadata} (hm : m.Grows n) {type : TypeDefId}
    {args : List Sig} {i : TypeInstance} (h : m.freshType type args = .ok i) :
    n.freshType type args = .ok i := by
  obtain ⟨t, ht, hi⟩ := exists_of_bind_ok h
  obtain ⟨u, hu, hx⟩ := hm.typeDef ht
  rw [freshType, hu]
  exact (TypeInstance.make_extends hx args).trans hi

namespace Catalog

theorem freshMethod_mono (hc : c.Grows c') (hm : m.Grows n) {owner : TypeInstanceId}
    {method : MethodDefId} {args : List Sig} {i : MethodInstance}
    (h : c.freshMethod m owner method args = .ok i) : c'.freshMethod n owner method args = .ok i := by
  obtain ⟨t, ht, h⟩ := exists_of_bind_ok h
  obtain ⟨d, hd, h⟩ := exists_of_bind_ok h
  rw [freshMethod, hc.typeInstance ht, hm.methodDef hd]
  exact h

theorem freshField_mono (hc : c.Grows c') (hm : m.Grows n) {owner : TypeInstanceId} {index : Nat}
    {i : FieldInstance} (h : c.freshField m owner index = .ok i) :
    c'.freshField n owner index = .ok i := by
  obtain ⟨t, ht, h⟩ := exists_of_bind_ok h
  obtain ⟨d, hd, h⟩ := exists_of_bind_ok h
  obtain ⟨e, he, hx⟩ := hm.typeDef hd
  rw [freshField, hc.typeInstance ht]
  show (n.typeDef t.type.id >>= _) = _
  rw [he]
  split at h
  · cases h
  · rename_i field hf
    show (match e.fields[index]? with
      | none => _
      | some field => FieldInstance.make t field) = _
    rw [getElem?_mono hx.fields hf]
    exact h

end Catalog

/-! ## Publishing -/

namespace Catalog

theorem publishType_entered (c : Catalog) (key : String) (i : TypeInstance) :
    ∃ r id, Entered c.types key i r id ∧ c.publishType key i = ({ c with types := r }, id) := by
  rw [publishType]
  cases hf : c.types.find? key with
  | some id => exact ⟨_, _, .found hf, rfl⟩
  | none => exact ⟨_, _, .added hf, rfl⟩

theorem publishField_entered (c : Catalog) (owner : TypeInstanceId) (i : FieldInstance) :
    ∃ r id, Entered c.fields (owner, i.key) i r id ∧
      c.publishField owner i = ({ c with fields := r }, id) := by
  rw [publishField]
  cases hf : c.fields.find? (owner, i.key) with
  | some id => exact ⟨_, _, .found hf, rfl⟩
  | none => exact ⟨_, _, .added hf, rfl⟩

theorem publishMethod_ok {owner : TypeInstanceId} {key : String} {i : MethodInstance}
    {id : MethodInstanceId} (h : c.publishMethod owner key i = .ok (c', id)) :
    ∃ r, Entered c.methods (owner, key) i r id ∧ c' = { c with methods := r } := by
  rw [publishMethod] at h
  split at h
  · rename_i hf
    cases h
    exact ⟨_, .found hf, rfl⟩
  · rename_i hf
    obtain ⟨text, _, h⟩ := exists_of_map_ok h
    cases h
    exact ⟨_, .added hf, rfl⟩

/-! ## Resolving -/

theorem resolveType_ok {type : TypeDefId} {args : List Sig} {answer : Option TypeInstanceId}
    (h : c.resolveType m type args = .ok (c', answer)) :
    ∃ i, m.freshType type args = .ok i ∧
      (i.isConcrete = .ok false ∧ c' = c ∧ answer = none ∨
        i.isConcrete = .ok true ∧ ∃ key r id, i.key = .ok key ∧ Entered c.types key i r id ∧
          c' = { c with types := r } ∧ answer = some id) := by
  obtain ⟨d, hd, h⟩ := exists_of_bind_ok h
  obtain ⟨i, hi, h⟩ := exists_of_bind_ok h
  obtain ⟨concrete, hb, h⟩ := exists_of_bind_ok h
  refine ⟨i, ?_, ?_⟩
  · rw [Metadata.freshType, hd]
    exact hi
  · cases concrete with
    | false =>
      cases h
      exact .inl ⟨hb, rfl, rfl⟩
    | true =>
      obtain ⟨key, hkey, h⟩ := exists_of_bind_ok h
      obtain ⟨r, id, he, hp⟩ := c.publishType_entered key i
      rw [hp] at h
      cases h
      exact .inr ⟨hb, key, r, id, hkey, he, rfl, rfl⟩

theorem resolveMethod_ok {owner : TypeInstanceId} {method : MethodDefId} {args : List Sig}
    {answer : Option MethodInstanceId}
    (h : c.resolveMethod m owner method args = .ok (c', answer)) :
    Sig.anyHasParam args = true ∧ c' = c ∧ answer = none ∨
      Sig.anyHasParam args = false ∧ ∃ i key r id, c.freshMethod m owner method args = .ok i ∧
        i.concretizedKey = .ok key ∧ Entered c.methods (owner, key) i r id ∧
        c' = { c with methods := r } ∧ answer = some id := by
  obtain ⟨t, ht, h⟩ := exists_of_bind_ok h
  obtain ⟨d, hd, h⟩ := exists_of_bind_ok h
  cases hp : Sig.anyHasParam args with
  | true =>
    rw [hp] at h
    cases h
    exact .inl ⟨rfl, rfl, rfl⟩
  | false =>
    rw [hp] at h
    obtain ⟨j, hj, h⟩ := exists_of_bind_ok h
    obtain ⟨i, hi, h⟩ := exists_of_bind_ok h
    obtain ⟨key, hkey, h⟩ := exists_of_bind_ok h
    obtain ⟨⟨c₁, id⟩, hpub, h⟩ := exists_of_bind_ok h
    cases h
    obtain ⟨r, he, rfl⟩ := publishMethod_ok hpub
    refine .inr ⟨rfl, i, key, r, id, ?_, hkey, he, rfl, rfl⟩
    rw [freshMethod, ht, hd]
    show (MethodInstance.make t d args >>= _) = _
    rw [hj]
    exact hi

theorem resolveField_ok {owner : TypeInstanceId} {index : Nat} {id : FieldInstanceId}
    (h : c.resolveField m owner index = .ok (c', id)) :
    ∃ i r, c.freshField m owner index = .ok i ∧ Entered c.fields (owner, i.key) i r id ∧
      c' = { c with fields := r } := by
  obtain ⟨t, ht, h⟩ := exists_of_bind_ok h
  obtain ⟨d, hd, h⟩ := exists_of_bind_ok h
  split at h
  · cases h
  · rename_i field hf
    obtain ⟨i, hi, h⟩ := exists_of_bind_ok h
    obtain ⟨r, k, he, hp⟩ := c.publishField_entered owner i
    rw [hp] at h
    cases h
    refine ⟨i, r, ?_, he, rfl⟩
    rw [freshField, ht]
    show (m.typeDef t.type.id >>= _) = _
    rw [hd]
    show (match d.fields[index]? with
      | none => _
      | some field => FieldInstance.make t field) = _
    rw [hf]
    exact hi

/-! ## Resolving again -/

theorem resolveType_of_find? {type : TypeDefId} {args : List Sig} {i : TypeInstance}
    {key : String} {id : TypeInstanceId} (hi : m.freshType type args = .ok i)
    (hb : i.isConcrete = .ok true) (hkey : i.key = .ok key) (hf : c.types.find? key = some id) :
    c.resolveType m type args = .ok (c, some id) := by
  obtain ⟨d, hd, hi⟩ := exists_of_bind_ok hi
  simp only [resolveType, hd, hi, hb, hkey, publishType, hf, bind, Except.bind, pure, Except.pure,
    if_true]

theorem resolveMethod_of_find? {owner : TypeInstanceId} {method : MethodDefId} {args : List Sig}
    {i : MethodInstance} {key : String} {id : MethodInstanceId}
    (hp : Sig.anyHasParam args = false) (hi : c.freshMethod m owner method args = .ok i)
    (hkey : i.concretizedKey = .ok key) (hf : c.methods.find? (owner, key) = some id) :
    c.resolveMethod m owner method args = .ok (c, some id) := by
  obtain ⟨t, ht, hi⟩ := exists_of_bind_ok hi
  obtain ⟨d, hd, hi⟩ := exists_of_bind_ok hi
  obtain ⟨j, hj, hi⟩ := exists_of_bind_ok hi
  simp only [resolveMethod, ht, hd, hp, hj, hi, hkey, publishMethod, hf, bind, Except.bind, pure,
    Except.pure, Bool.false_eq_true, if_false]

end Catalog
end Monomorph
