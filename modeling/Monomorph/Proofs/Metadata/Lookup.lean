import Monomorph.Proofs.Metadata.Growth

/-!
# Monomorph.Proofs.Metadata.Lookup

What is found in metadata.

* `Listed`: a type lists the methods that it declares, in the order of their numbers. Every
  addition keeps this (`listed_addType`, `listed_addMethod`, `listed_addField`).
* `findType?_eq_some_iff`: a full name leads to the type that has it.
* `findMethod_eq_ok_iff`, `findMethod_ambiguous_iff`, `findMethod_unknown_iff`: a name leads to the
  only method of that name; two methods are an error, and so is none.
-/

namespace Monomorph
namespace Metadata

variable {m n : Metadata}

/-! ## Lists of methods -/

/-- Every type lists the methods that it declares, in order, and every method is declared by some
type. -/
structure Listed (m : Metadata) : Prop where
  methods : ∀ t ∈ m.types,
    t.methods = (m.methods.filter fun d => d.declaringType == t.id).map MethodDef.id
  declared : ∀ d ∈ m.methods, d.declaringType < m.types.length

theorem listed_empty : (∅ : Metadata).Listed :=
  ⟨List.forall_mem_nil _, List.forall_mem_nil _⟩

theorem listed_addType (hm : m.Listed) {nameSpace name : String} {genericParams : Nat}
    {corlib valueType : Bool} {id : TypeDefId}
    (h : m.addType nameSpace name genericParams corlib valueType = .ok (n, id)) : n.Listed := by
  obtain ⟨_, _, rfl⟩ := addType_ok h
  refine ⟨?_, ?_⟩
  · intro t ht
    rcases List.mem_append.1 ht with ht | ht
    · exact hm.methods t ht
    · rw [List.mem_singleton.1 ht]
      have hnone : m.methods.filter (fun d => d.declaringType == m.types.length) = [] := by
        rw [List.filter_eq_nil_iff]
        intro d hd he
        have hlt := hm.declared d hd
        rw [eq_of_beq he] at hlt
        exact Nat.lt_irrefl _ hlt
      rw [hnone]
      rfl
  · intro d hd
    rw [List.length_append]
    exact Nat.lt_add_right 1 (hm.declared d hd)

/-- A type after a change of one of the types. -/
theorem exists_of_mem_withType (hi : m.Indexed) {type : TypeDefId} {f : TypeDef → TypeDef}
    {t : TypeDef} (h : t ∈ (m.withType type f).types) :
    ∃ u ∈ m.types, t = if type = u.id then f u else u := by
  obtain ⟨k, hk⟩ := List.mem_iff_getElem?.1 h
  rw [getElem?_withType, Option.map_eq_some_iff] at hk
  obtain ⟨u, hu, rfl⟩ := hk
  refine ⟨u, List.mem_of_getElem? hu, ?_⟩
  rw [hi.typeId hu]

theorem listed_addMethod (hi : m.Indexed) (hm : m.Listed) {type : TypeDefId} {name : String}
    {sig : MethodSig} {attributes : MethodAttributes} {body : Option MethodBody}
    {id : MethodDefId} (h : m.addMethod type name sig attributes body = .ok (n, id)) : n.Listed := by
  have hlt : type < m.types.length := by
    obtain ⟨t, ht, _⟩ := exists_of_bind_ok h
    exact (List.getElem?_eq_some_iff.1 (typeDef_eq_ok_iff.1 ht)).1
  obtain ⟨_, rfl⟩ := addMethod_ok h
  refine ⟨?_, ?_⟩
  · intro t ht
    obtain ⟨u, hu, rfl⟩ := exists_of_mem_withType hi ht
    have hmethods := hm.methods u hu
    simp only [List.filter_append, List.map_append]
    split
    · rename_i he
      simp [hmethods, he]
    · rename_i he
      simp [hmethods, he]
  · intro d hd
    simp only [withType, List.length_modify]
    rcases List.mem_append.1 hd with hd | hd
    · exact hm.declared d hd
    · rw [List.mem_singleton.1 hd]
      exact hlt

theorem listed_addField (hi : m.Indexed) (hm : m.Listed) {type : TypeDefId} {field : FieldDef}
    (h : m.addField type field = .ok n) : n.Listed := by
  rw [addField_ok h]
  refine ⟨?_, ?_⟩
  · intro t ht
    obtain ⟨u, hu, rfl⟩ := exists_of_mem_withType hi ht
    have hmethods := hm.methods u hu
    split
    · exact hmethods
    · exact hmethods
  · intro d hd
    simp only [withType, List.length_modify]
    exact hm.declared d hd

theorem Indexed.methodIds (hi : m.Indexed) :
    m.methods.map MethodDef.id = List.range m.methods.length := by
  refine List.ext_getElem? fun k => ?_
  rw [List.getElem?_map]
  by_cases hk : k < m.methods.length
  · rw [List.getElem?_range hk, List.getElem?_eq_getElem hk]
    exact congrArg some (hi.methodId (List.getElem?_eq_getElem hk))
  · rw [List.getElem?_eq_none (by omega), List.getElem?_eq_none (by simpa using hk)]
    rfl

theorem Listed.increasing (hi : m.Indexed) (hm : m.Listed) {t : TypeDef} (ht : t ∈ m.types) :
    t.methods.Pairwise (· < ·) := by
  have hsub : t.methods.Sublist (List.range m.methods.length) := by
    rw [hm.methods t ht, ← hi.methodIds]
    exact List.filter_sublist.map _
  exact List.pairwise_lt_range.sublist hsub

theorem Listed.mem_methods_iff (hi : m.Indexed) (hm : m.Listed) {t : TypeDef} (ht : t ∈ m.types)
    {id : MethodDefId} :
    id ∈ t.methods ↔ ∃ d, m.methodDef id = .ok d ∧ d.declaringType = t.id := by
  rw [hm.methods t ht, List.mem_map]
  constructor
  · rintro ⟨d, hd, rfl⟩
    obtain ⟨hd, he⟩ := List.mem_filter.1 hd
    obtain ⟨k, hk⟩ := List.mem_iff_getElem?.1 hd
    have hid : d.id = k := hi.methodId hk
    rw [hid]
    exact ⟨d, methodDef_eq_ok_iff.2 hk, eq_of_beq he⟩
  · rintro ⟨d, hd, he⟩
    have hk := methodDef_eq_ok_iff.1 hd
    exact ⟨d, List.mem_filter.2 ⟨List.mem_of_getElem? hk, beq_iff_eq.2 he⟩, hi.methodId hk⟩

/-! ## Finding -/

theorem exists_of_findType?_some {fullName : String} {id : TypeDefId}
    (h : m.findType? fullName = some id) :
    ∃ t, m.typeDef id = .ok t ∧ t.fullName = fullName := by
  rw [findType?, List.findIdx?_eq_some_iff_getElem] at h
  obtain ⟨hlt, hname, _⟩ := h
  exact ⟨_, typeDef_eq_ok_iff.2 (List.getElem?_eq_getElem hlt), eq_of_beq hname⟩

/-- However a full name is divided into namespace and name, it leads to the type that has it. -/
theorem findType?_eq_some_iff (hi : m.Indexed) {fullName : String} {id : TypeDefId} :
    m.findType? fullName = some id ↔ ∃ t, m.typeDef id = .ok t ∧ t.fullName = fullName := by
  refine ⟨exists_of_findType?_some, ?_⟩
  rintro ⟨t, ht, hname⟩
  cases h : m.findType? fullName with
  | none =>
    refine absurd ?_ (findType?_eq_none_iff.1 h)
    rw [← hname]
    exact List.mem_map_of_mem (List.mem_of_getElem? (typeDef_eq_ok_iff.1 ht))
  | some k =>
    obtain ⟨u, hu, hu'⟩ := exists_of_findType?_some h
    rw [hi.id_of_fullName hu ht (hu'.trans hname.symm)]

theorem findType_eq_ok_iff (hi : m.Indexed) {fullName : String} {id : TypeDefId} :
    m.findType fullName = .ok id ↔ ∃ t, m.typeDef id = .ok t ∧ t.fullName = fullName := by
  rw [← findType?_eq_some_iff hi, findType]
  cases m.findType? fullName with
  | none => simp
  | some k => simp

/-- The type declares a method of that name under that number. -/
def HasMethod (m : Metadata) (type : TypeDefId) (name : String) (id : MethodDefId) : Prop :=
  ∃ d, m.methodDef id = .ok d ∧ d.declaringType = type ∧ d.name = name

section Methods

variable {t : TypeDef} {name : String} {id : MethodDefId}

theorem mem_named_iff (hi : m.Indexed) (hm : m.Listed) (ht : t ∈ m.types) :
    id ∈ t.methods.filter (m.isMethodNamed name) ↔ m.HasMethod t.id name id := by
  rw [List.mem_filter, hm.mem_methods_iff hi ht]
  constructor
  · rintro ⟨⟨d, hd, he⟩, hname⟩
    rw [isMethodNamed, methodDef_eq_ok_iff.1 hd] at hname
    exact ⟨d, hd, he, eq_of_beq hname⟩
  · rintro ⟨d, hd, he, hname⟩
    refine ⟨⟨d, hd, he⟩, ?_⟩
    rw [isMethodNamed, methodDef_eq_ok_iff.1 hd]
    exact beq_iff_eq.2 hname

theorem findMethod_eq (ht : m.typeDef t.id = .ok t) (name : String) :
    m.findMethod t.id name =
      match t.methods.filter (m.isMethodNamed name) with
      | [] => .error (.unknownMethod t.fullName name)
      | [id] => .ok id
      | _ => .error (.ambiguousMethod t.fullName name) := by
  rw [findMethod, ht]
  rfl

/-- What a name leads to among the methods of a type. -/
inductive MethodFound (m : Metadata) (t : TypeDef) (name : String) :
    Except Error MethodDefId → Prop where
  | only {id : MethodDefId} : (∀ k, m.HasMethod t.id name k ↔ k = id) → MethodFound m t name (.ok id)
  | several {j k : MethodDefId} : j ≠ k → m.HasMethod t.id name j → m.HasMethod t.id name k →
      MethodFound m t name (.error (.ambiguousMethod t.fullName name))
  | none : (∀ k, ¬ m.HasMethod t.id name k) →
      MethodFound m t name (.error (.unknownMethod t.fullName name))

theorem findMethod_found (hi : m.Indexed) (hm : m.Listed) (ht : m.typeDef t.id = .ok t)
    (name : String) : m.MethodFound t name (m.findMethod t.id name) := by
  have hmem := List.mem_of_getElem? (typeDef_eq_ok_iff.1 ht)
  have hsorted := (hm.increasing hi hmem).sublist
    (List.filter_sublist (p := m.isMethodNamed name))
  have hnamed (k : MethodDefId) :
      k ∈ t.methods.filter (m.isMethodNamed name) ↔ m.HasMethod t.id name k :=
    mem_named_iff hi hm hmem
  rw [findMethod_eq ht]
  generalize t.methods.filter (m.isMethodNamed name) = ids at hsorted hnamed ⊢
  rcases ids with _ | ⟨a, _ | ⟨b, rest⟩⟩
  · exact .none fun k hk => List.not_mem_nil ((hnamed k).2 hk)
  · exact .only fun k => (hnamed k).symm.trans List.mem_singleton
  · have hlt := (List.pairwise_cons.1 hsorted).1 b (by simp)
    exact .several (Nat.ne_of_lt hlt) ((hnamed a).1 (by simp)) ((hnamed b).1 (by simp))

variable (hi : m.Indexed) (hm : m.Listed) (ht : m.typeDef t.id = .ok t)

include hi hm ht

theorem findMethod_eq_ok_iff :
    m.findMethod t.id name = .ok id ↔ ∀ k, m.HasMethod t.id name k ↔ k = id := by
  have h := findMethod_found hi hm ht name
  generalize m.findMethod t.id name = r at h ⊢
  cases h with
  | only hk =>
    refine ⟨?_, fun h => congrArg Except.ok ((h _).1 ((hk _).2 rfl))⟩
    rintro ⟨⟩
    exact hk
  | several hne hj hk =>
    refine iff_of_false nofun fun h => ?_
    exact hne (((h _).1 hj).trans ((h _).1 hk).symm)
  | none hn => exact iff_of_false nofun fun h => hn id ((h id).2 rfl)

theorem findMethod_ambiguous_iff :
    m.findMethod t.id name = .error (.ambiguousMethod t.fullName name) ↔
      ∃ j k, j ≠ k ∧ m.HasMethod t.id name j ∧ m.HasMethod t.id name k := by
  have h := findMethod_found hi hm ht name
  generalize m.findMethod t.id name = r at h ⊢
  cases h with
  | only hk =>
    refine iff_of_false nofun ?_
    rintro ⟨i, j, hne, hi, hj⟩
    exact hne (((hk i).1 hi).trans ((hk j).1 hj).symm)
  | several hne hj hk => exact iff_of_true rfl ⟨_, _, hne, hj, hk⟩
  | none hn =>
    refine iff_of_false nofun ?_
    rintro ⟨i, _, _, hi, _⟩
    exact hn i hi

theorem findMethod_unknown_iff :
    m.findMethod t.id name = .error (.unknownMethod t.fullName name) ↔
      ∀ k, ¬ m.HasMethod t.id name k := by
  have h := findMethod_found hi hm ht name
  generalize m.findMethod t.id name = r at h ⊢
  cases h with
  | only hk => exact iff_of_false nofun fun h => h _ ((hk _).2 rfl)
  | several _ hj _ => exact iff_of_false nofun fun h => h _ hj
  | none hn => exact iff_of_true rfl hn

end Methods

end Metadata
end Monomorph
