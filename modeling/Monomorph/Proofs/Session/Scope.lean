import Monomorph.Proofs.Session.Coherence
import Monomorph.Proofs.Signature.Leaves

/-!
# Monomorph.Proofs.Session.Scope

Published records are closed in their own scope.

The arguments of a published type or method mention no parameter at all, so substituting them
leaves no parameter of the type or of the method behind; parameters of other definitions stay.

* `Sig.avoidsType_of_substitute`, `Sig.avoidsMethod_of_substitute`: what one substitution leaves.
* `MethodInstance.wellScoped_of_concreteSig`: what that means for the whole record of a method.
* `records_wellScoped`: every record of every run is well scoped. A method whose definition
  mentions only its own parameters and those of its type has a record without parameters.
-/

namespace Monomorph

/-! ## Parameters and scopes -/

namespace Binding

/-- The type whose parameters are in scope. -/
def type : Binding → TypeDefId
  | ofType type _ => type
  | ofMethod type _ _ _ => type

theorem type_ne_of_lookup {b : Binding} {number : Nat} {owner : TypeRef}
    (h : b.lookup (.typeParam number owner) = .ok none) : owner.id ≠ b.type := by
  intro ho
  cases b with
  | ofType type args =>
    have ho : owner.id = type := ho
    rw [lookup, typeArg, if_pos ho] at h
    exact pick_ne_none _ _ _ h
  | ofMethod type args method methodArgs =>
    have ho : owner.id = type := ho
    rw [lookup, typeArg, if_pos ho] at h
    exact pick_ne_none _ _ _ h

theorem method_ne_of_lookup {type method owner : Nat} {typeArgs methodArgs : List Sig}
    {number : Nat} (h : (ofMethod type typeArgs method methodArgs).lookup
      (.methodParam number owner) = .ok none) : owner ≠ method := by
  intro ho
  rw [lookup, methodArg, if_pos ho] at h
  exact pick_ne_none _ _ _ h

end Binding

namespace Sig

/-- No parameter of that type is met in the signature. -/
def AvoidsType (type : TypeDefId) (s : Sig) : Prop :=
  ∀ number owner, .typeParam number owner ∈ s.leaves → owner.id ≠ type

/-- No parameter of that method is met in the signature. -/
def AvoidsMethod (method : MethodDefId) (s : Sig) : Prop :=
  ∀ number owner, .methodParam number owner ∈ s.leaves → owner ≠ method

/-- Every parameter that is met in the signature belongs to that type or to that method. -/
structure InScope (type : TypeDefId) (method : MethodDefId) (s : Sig) : Prop where
  ofType : ∀ number owner, .typeParam number owner ∈ s.leaves → owner.id = type
  ofMethod : ∀ number owner, .methodParam number owner ∈ s.leaves → owner = method

theorem avoidsType_of_substitute {b : Binding} {s t : Sig} (h : s.substitute b = .ok t)
    (hb : ∀ a ∈ b.args, a.Closed) : t.AvoidsType b.type := by
  intro number owner hm
  exact Binding.type_ne_of_lookup (param_of_substitute h hb hm rfl).2

section

variable {type : TypeDefId} {method : MethodDefId} {typeArgs methodArgs : List Sig} {s t : Sig}

theorem avoidsMethod_of_substitute
    (h : s.substitute (.ofMethod type typeArgs method methodArgs) = .ok t)
    (ht : ∀ a ∈ typeArgs, a.Closed) (hm : ∀ a ∈ methodArgs, a.Closed) :
    t.AvoidsMethod method := by
  intro number owner hx
  have hb : ∀ a ∈ typeArgs ++ methodArgs, a.Closed := by
    intro a ha
    exact (List.mem_append.1 ha).elim (ht a) (hm a)
  exact Binding.method_ne_of_lookup (param_of_substitute h hb hx rfl).2

theorem closed_of_substitute
    (h : s.substitute (.ofMethod type typeArgs method methodArgs) = .ok t)
    (ht : ∀ a ∈ typeArgs, a.Closed) (hm : ∀ a ∈ methodArgs, a.Closed)
    (hs : s.InScope type method) : t.Closed := by
  intro x hx
  have hb : ∀ a ∈ typeArgs ++ methodArgs, a.Closed := by
    intro a ha
    exact (List.mem_append.1 ha).elim (ht a) (hm a)
  cases hp : x.isParam with
  | false => rfl
  | true =>
    -- a parameter that is left is out of scope, and `s` has none of those
    obtain ⟨hxs, hn⟩ := param_of_substitute h hb hx hp
    cases x with
    | typeParam number owner =>
      exact absurd (hs.ofType number owner hxs) (Binding.type_ne_of_lookup hn)
    | methodParam number owner =>
      exact absurd (hs.ofMethod number owner hxs) (Binding.method_ne_of_lookup hn)
    | _ => cases hp

end

end Sig

/-! ## Records -/

theorem TypeInstance.closed_receiver {t : TypeInstance} (h : ∀ a ∈ t.args, a.Closed) :
    t.receiver.Closed := by
  have hsig : t.sig.Closed := by
    rw [TypeInstance.sig]
    split
    · rw [TypeInstance.typeSig]
      intro x hx
      split at hx
      · rw [List.mem_singleton.1 hx]
        rfl
      · rw [List.mem_singleton.1 hx]
        rfl
    · intro x hx
      rw [Sig.leaves, Sig.leavesOfList_eq_flatMap, List.mem_flatMap] at hx
      obtain ⟨a, ha, hxa⟩ := hx
      exact h a ha x hxa
  rw [TypeInstance.receiver]
  split
  · exact hsig
  · exact hsig

/-- The types of a method after substitution. -/
def ConcreteSig.types (c : ConcreteSig) : List Sig :=
  c.ret :: (c.params ++ c.sentinel.getD [] ++ c.locals.getD [])

namespace MethodInstance

/-- The types of a method as its definition has them. -/
def declaredTypes (i : MethodInstance) : List Sig :=
  i.definition.sig.ret ::
    (i.definition.sig.params ++ i.definition.sig.sentinel.getD [] ++ i.declaredLocals.getD [])

/-- The record of a method with its concrete signature: every type is filled in, and none mentions
a parameter that the arguments stand for. -/
structure WellScoped (i : MethodInstance) (c : ConcreteSig) : Prop where
  concrete : i.concrete = some c
  args : ∀ a ∈ i.args, a.Closed
  params : c.params.length = i.definition.sig.params.length
  sentinel : c.sentinel.map List.length = i.definition.sig.sentinel.map List.length
  locals : c.locals.isSome = true ↔ ∃ b ∈ i.definition.body, b.locals ≠ []
  ofType : ∀ s ∈ c.types, s.AvoidsType i.owner.type.id
  ofMethod : ∀ s ∈ c.types, s.AvoidsMethod i.definition.id
  receiver : ∀ s ∈ c.receiver, s.Closed
  /-- A method that mentions only parameters of its type and its own has no parameter left. -/
  closed : (∀ s ∈ i.declaredTypes, s.InScope i.definition.declaringType i.definition.id) →
    ∀ s ∈ c.types, s.Closed

theorem declaredLocals_isSome_iff (i : MethodInstance) :
    i.declaredLocals.isSome = true ↔ ∃ b ∈ i.definition.body, b.locals ≠ [] := by
  simp [Option.isSome_iff_exists, declaredLocals_eq_some_iff]

/-- Every type of the concrete signature comes from one that the definition has. -/
theorem exists_declared_of_mem_types {i : MethodInstance} {c : ConcreteSig}
    (h : i.concreteSig = .ok c) {t : Sig} (ht : t ∈ c.types) :
    ∃ s ∈ i.declaredTypes, s.substitute i.binding = .ok t := by
  obtain ⟨hret, hparams, hsentinel, hlocals, _⟩ := concreteSig_ok h
  simp only [ConcreteSig.types, List.mem_cons, List.mem_append] at ht
  simp only [declaredTypes, List.mem_cons, List.mem_append]
  rcases ht with rfl | (ht | ht) | ht
  · exact ⟨_, .inl rfl, hret⟩
  · obtain ⟨s, hm, hs⟩ := exists_of_mem_mapM_ok hparams ht
    exact ⟨s, .inr (.inl (.inl hm)), hs⟩
  · obtain ⟨s, hm, hs⟩ := (substituteList?_ok hsentinel).2 t ht
    exact ⟨s, .inr (.inl (.inr hm)), hs⟩
  · obtain ⟨s, hm, hs⟩ := (substituteList?_ok hlocals).2 t ht
    exact ⟨s, .inr (.inr hm), hs⟩

theorem wellScoped_of_concreteSig {i : MethodInstance} {c : ConcreteSig}
    (h : i.concreteSig = .ok c) (hc : i.concrete = some c)
    (hd : i.definition.declaringType = i.owner.type.id) (ht : ∀ a ∈ i.owner.args, a.Closed)
    (hm : ∀ a ∈ i.args, a.Closed) : i.WellScoped c := by
  obtain ⟨_, hparams, hsentinel, hlocals, hreceiver⟩ := concreteSig_ok h
  refine ⟨hc, hm, (forall₂_of_mapM_ok hparams).length_eq.symm, (substituteList?_ok hsentinel).1,
    ?_, ?_, ?_, ?_, ?_⟩
  · have hsome := congrArg Option.isSome (substituteList?_ok hlocals).1
    rw [Option.isSome_map, Option.isSome_map] at hsome
    rw [← i.declaredLocals_isSome_iff, hsome]
  · intro t hx
    obtain ⟨s, _, hs⟩ := exists_declared_of_mem_types h hx
    exact Sig.avoidsType_of_substitute hs fun a ha => (List.mem_append.1 ha).elim (ht a) (hm a)
  · intro t hx
    obtain ⟨s, _, hs⟩ := exists_declared_of_mem_types h hx
    exact Sig.avoidsMethod_of_substitute hs ht hm
  · intro r hr
    rw [hreceiver] at hr
    split at hr
    · cases hr
      exact TypeInstance.closed_receiver ht
    · cases hr
  · intro hown t hx
    obtain ⟨s, hmem, hs⟩ := exists_declared_of_mem_types h hx
    exact Sig.closed_of_substitute hs ht hm (hd ▸ hown s hmem)

end MethodInstance

/-! ## Runs -/

namespace Session

variable {s : Session}

theorem Coherent.closed_args (h : s.Coherent) {id : TypeInstanceId} {t : TypeInstance}
    (ht : s.catalog.typeInstance id = .ok t) : ∀ a ∈ t.args, a.Closed := by
  obtain ⟨key, he⟩ := h.typeEntry_of_instance ht
  exact Sig.closed_of_areConcrete he.isConcrete

theorem Coherent.wellScoped (h : s.Coherent) {id : MethodInstanceId} {i : MethodInstance}
    (hi : s.catalog.methodInstance id = .ok i) : ∃ c, i.WellScoped c := by
  obtain ⟨owner, key, he⟩ := h.methodEntry_of_instance hi
  obtain ⟨⟨c, hc, hs⟩, hd⟩ := Catalog.concrete_of_freshMethod he.fresh
  exact ⟨c, MethodInstance.wellScoped_of_concreteSig hc hs hd (h.closed_args he.owner)
    (Sig.closed_of_anyHasParam he.noParam)⟩

theorem Coherent.field_avoidsType (h : s.Coherent) {id : FieldInstanceId} {i : FieldInstance}
    (hi : s.catalog.fieldInstance id = .ok i) : i.type.AvoidsType i.owner.type.id := by
  obtain ⟨owner, key, he⟩ := h.fieldEntry_of_instance hi
  obtain ⟨index, hf⟩ := he.fresh
  obtain ⟨t, ht, hf⟩ := exists_of_bind_ok hf
  obtain ⟨d, _, hf⟩ := exists_of_bind_ok hf
  split at hf
  · cases hf
  · obtain ⟨type, hs, hf⟩ := exists_of_bind_ok hf
    obtain ⟨key, _, hf⟩ := exists_of_bind_ok hf
    cases hf
    exact Sig.avoidsType_of_substitute hs (h.closed_args ht)

/-- Every record of a run is closed in its own scope. -/
theorem records_wellScoped (calls : List Call) :
    (∀ {id : TypeInstanceId} {t : TypeInstance},
      (after calls).catalog.typeInstance id = .ok t → ∀ a ∈ t.args, a.Closed) ∧
    (∀ {id : MethodInstanceId} {i : MethodInstance},
      (after calls).catalog.methodInstance id = .ok i → ∃ c, i.WellScoped c) ∧
    (∀ {id : FieldInstanceId} {i : FieldInstance},
      (after calls).catalog.fieldInstance id = .ok i → i.type.AvoidsType i.owner.type.id) := by
  have hc := coherent_after calls
  exact ⟨hc.closed_args, hc.wellScoped, hc.field_avoidsType⟩

/-- A generic type whose method has a parameter of its own and mentions one of another type, and
whose field mentions both types; all are asked for under one argument. -/
def mapCalls : List Call :=
  [.addType "Demo" "Box" 1 false true, .addType "Demo" "Cup" 1 false false,
    .addMethod 0 "Map"
      ⟨⟨0x30⟩, 1, .methodParam 0 0,
        [.typeParam 0 ⟨0, "Demo", "Box", false⟩, .typeParam 0 ⟨1, "Demo", "Cup", false⟩], none⟩
      ⟨6⟩ (some ⟨[.szArray (.methodParam 0 0)], [], []⟩),
    .addField 0 ⟨"value", .ptr (.typeParam 0 ⟨0, "Demo", "Box", false⟩), false⟩,
    .resolveType 0 [.primitive .int32], .resolveMethod 0 0 [.primitive .string],
    .resolveField 0 0]

/-- The parameter of the other type is still there, and no other parameter is. -/
theorem records_wellScoped_map :
    (∃ t, (after mapCalls).catalog.typeInstance 0 = .ok t ∧ ∀ a ∈ t.args, a.Closed) ∧
    (∃ i c, (after mapCalls).catalog.methodInstance 0 = .ok i ∧ i.WellScoped c ∧
      .typeParam 0 ⟨1, "Demo", "Cup", false⟩ ∈ c.params) ∧
    ∃ i, (after mapCalls).catalog.fieldInstance 0 = .ok i ∧ i.type.AvoidsType 0 := by
  obtain ⟨htypes, hmethods, hfields⟩ := records_wellScoped mapCalls
  refine ⟨⟨_, rfl, @htypes 0 _ rfl⟩, ?_, ⟨_, rfl, @hfields 0 _ rfl⟩⟩
  obtain ⟨c, hc⟩ := @hmethods 0 _ rfl
  refine ⟨_, c, rfl, hc, ?_⟩
  cases hc.concrete
  decide

end Session
end Monomorph
