import Monomorph.Proofs.Instance.Records
import Monomorph.Proofs.Session.Coherence

/-!
# Monomorph.Proofs.Instance.Receiver

The receiver of a method is put together from the instance of its type, and is not substituted like
the parameters. That comes to the same.

Within its own definition a type stands for the instance whose arguments are its own parameters
(`TypeDef.selfSig`). Substituting the arguments of an instance there gives that instance, whatever
the arguments look like.

* `replace_selfSig`, `replace_selfReceiver`: so it is under any binding that gives the arguments to
  the parameters of the type.
* `receiver_eq_substituted`: hence in every instance, and in the concrete record of every method.
-/

namespace Monomorph

/-! ## A type within its own definition -/

namespace TypeDef

/-- The type with its own parameters as arguments. -/
def selfSig (t : TypeDef) : Sig :=
  if t.genericParams = 0 then t.sig
  else .genericInst t.sig ((List.range t.genericParams).map fun k => .typeParam k t.toRef)

/-- The receiver as the methods of the type would declare it: value types are passed by
reference. -/
def selfReceiver (t : TypeDef) : Sig :=
  if t.valueType then .byRef t.selfSig else t.selfSig

theorem replace_sig (t : TypeDef) (b : Binding) : t.sig.replace b = .ok t.sig := by
  rw [sig]
  split
  · rfl
  · rfl

section

/- The binding gives these arguments to the parameters of the type. -/
variable {t : TypeDef} {args : List Sig} {b : Binding} (hlen : args.length = t.genericParams)
  (hb : ∀ k, b.typeArg k t.toRef = (Binding.pick args .type k).map some)

include hlen hb

theorem replace_ownParams :
    Sig.replaceList b ((List.range t.genericParams).map fun k => .typeParam k t.toRef) =
      .ok args := by
  have hpick : ∀ (k : Nat) (s : Sig), args[k]? = some s →
      (Sig.typeParam k t.toRef).replace b = .ok s := by
    intro k s hs
    rw [Sig.replace, hb, Binding.pick, hs]
    rfl
  have hpure : args.mapM (fun s => (pure s : Except Error Sig)) = pure args := by
    rw [List.mapM_pure, List.map_id']
  rw [Sig.replaceList_eq_mapM, List.mapM_map, ← hlen]
  exact (mapM_range hpick).trans hpure

theorem replace_selfSig :
    t.selfSig.replace b = .ok (TypeInstance.sig ⟨t.toRef, t.valueType, args⟩) := by
  cases args with
  | nil =>
    have hzero : t.genericParams = 0 := hlen.symm
    rw [selfSig, if_pos hzero]
    exact t.replace_sig b
  | cons a rest =>
    have hne : t.genericParams ≠ 0 := by simp [← hlen]
    rw [selfSig, if_neg hne, Sig.replace, replace_ownParams hlen hb]
    rfl

theorem replace_selfReceiver :
    t.selfReceiver.replace b = .ok (TypeInstance.receiver ⟨t.toRef, t.valueType, args⟩) := by
  have hsig := replace_selfSig hlen hb
  rw [selfReceiver, TypeInstance.receiver]
  split
  · show (t.selfSig.replace b).map Sig.byRef = _
    rw [hsig]
    rfl
  · exact hsig

end

end TypeDef

/-! ## Instances and records -/

namespace TypeInstance

variable {t : TypeDef} {args : List Sig} {o : TypeInstance}

theorem substitute_selfSig (h : make t args = .ok o) :
    t.selfSig.substitute o.binding = .ok o.sig := by
  have hlen := length_of_make h
  obtain rfl := make_ok h
  exact Sig.substitute_of_replace (TypeDef.replace_selfSig hlen fun k => if_pos rfl)

theorem receiver_of_make (h : make t args = .ok o) :
    o.receiver = if t.valueType then .byRef o.sig else o.sig := by
  rw [make_ok h]
  rfl

end TypeInstance

namespace MethodInstance

variable {t : TypeDef} {args : List Sig} {i : MethodInstance}

theorem substitute_selfReceiver (h : TypeInstance.make t args = .ok i.owner) :
    t.selfReceiver.substitute i.binding = .ok i.owner.receiver := by
  have hlen := TypeInstance.length_of_make h
  apply Sig.substitute_of_replace
  rw [binding, TypeInstance.make_ok h]
  exact TypeDef.replace_selfReceiver hlen fun k => if_pos rfl

/-- The receiver of a concrete signature is that of the owner, which is what the declared receiver
becomes. -/
theorem exists_receiver {c : ConcreteSig} (h : TypeInstance.make t args = .ok i.owner)
    (hc : i.concreteSig = .ok c) (hthis : i.hasThis = true) :
    ∃ s, s = (if t.valueType then .byRef i.owner.sig else i.owner.sig) ∧
      c.receiver = some s ∧ t.selfReceiver.substitute i.binding = .ok s := by
  obtain ⟨_, _, _, _, hreceiver⟩ := concreteSig_ok hc
  refine ⟨i.owner.receiver, TypeInstance.receiver_of_make h, ?_, substitute_selfReceiver h⟩
  rw [hreceiver]
  exact if_pos hthis

/-- In every instance of a type, what the type is within its own definition becomes the instance by
substitution; and the receiver in the concrete record of a method, also of a published one, is what
the declared receiver becomes with the binding that the parameters are substituted with. -/
theorem receiver_eq_substituted :
    (∀ (t : TypeDef) (args : List Sig) (o : TypeInstance), TypeInstance.make t args = .ok o →
      t.selfSig.substitute o.binding = .ok o.sig) ∧
    (∀ (t : TypeDef) (args : List Sig) (i : MethodInstance) (c : ConcreteSig),
      TypeInstance.make t args = .ok i.owner → i.Arises → i.concrete = some c →
      i.hasThis = true → ∃ s, s = (if t.valueType then .byRef i.owner.sig else i.owner.sig) ∧
        c.receiver = some s ∧ t.selfReceiver.substitute i.binding = .ok s) ∧
    ∀ (calls : List Call) (id : MethodInstanceId) (i : MethodInstance),
      (Session.after calls).catalog.methodInstance id = .ok i → i.hasThis = true →
      ∃ t c s, (Session.after calls).metadata.typeDef i.owner.type.id = .ok t ∧
        i.concrete = some c ∧ s = (if t.valueType then .byRef i.owner.sig else i.owner.sig) ∧
          c.receiver = some s ∧ t.selfReceiver.substitute i.binding = .ok s := by
  refine ⟨fun t args o h => TypeInstance.substitute_selfSig h, ?_, ?_⟩
  · intro t args i c ho harises hc hthis
    exact exists_receiver ho (harises.concreteSig c hc) hthis
  · intro calls id i hi hthis
    have hcoherent := Session.coherent_after calls
    obtain ⟨owner, key, he⟩ := hcoherent.methodEntry_of_instance hi
    obtain ⟨⟨c, hc, hconcrete⟩, _⟩ := Catalog.concrete_of_freshMethod he.fresh
    -- the owner is an instance of a definition that is still there
    obtain ⟨_, hentry⟩ := hcoherent.typeEntry_of_instance he.owner
    obtain ⟨t, ht, ho⟩ := exists_of_bind_ok hentry.fresh
    obtain ⟨s, hs, hreceiver, hsub⟩ := exists_receiver ho hc hthis
    exact ⟨t, c, s, ht, hconcrete, hs, hreceiver, hsub⟩

/-- A value type with two parameters, and a method of it. -/
def swapDef : TypeDef :=
  ⟨4, "Demo", "Swap", false, true, 2, [7], []⟩

def swapMethod : MethodDef :=
  ⟨7, 4, "Second", .plain ⟨0x20⟩ (.typeParam 1 swapDef.toRef) [], ⟨6⟩, none⟩

/-- The first argument is the second parameter, and the second one holds what cannot be handled. -/
def swapInstance : TypeInstance :=
  ⟨swapDef.toRef, true, [.typeParam 1 swapDef.toRef, .ptr (.unsupported .fnPtr)]⟩

/-- The same type with a published method. -/
def swapCalls : List Call :=
  [.addType "Demo" "Swap" 2 false true,
    .addMethod 0 "Second" (.plain ⟨0x20⟩ (.typeParam 1 ⟨0, "Demo", "Swap", false⟩) []) ⟨6⟩ none,
    .resolveType 0 [.primitive .char, .primitive .int32], .resolveMethod 0 0 []]

theorem receiver_eq_substituted_swap :
    swapDef.selfSig.substitute swapInstance.binding = .ok swapInstance.sig ∧
    (∃ (i : MethodInstance) (c : ConcreteSig), i.Arises ∧ i.owner = swapInstance ∧
      i.overrides = [3] ∧ i.concrete = some c ∧ c.receiver = some (.byRef swapInstance.sig) ∧
      swapDef.selfReceiver.substitute i.binding = .ok (.byRef swapInstance.sig)) ∧
    ∃ i t, (Session.after swapCalls).catalog.methodInstance 0 = .ok i ∧
      (Session.after swapCalls).metadata.typeDef 0 = .ok t ∧
      t.selfReceiver.substitute i.binding = .ok (.byRef i.owner.sig) := by
  obtain ⟨htype, hrecord, hpublished⟩ := receiver_eq_substituted
  have hmake : TypeInstance.make swapDef swapInstance.args = .ok swapInstance := rfl
  refine ⟨htype _ _ _ hmake, ?_, ?_⟩
  · have hmade : make swapInstance swapMethod [] =
        .ok ⟨swapInstance, swapMethod, [], none, [], false, false⟩ := rfl
    have harises := (Arises.concretized (.made hmade) rfl).overridden 3
    obtain ⟨_, rfl, hr, hb⟩ := hrecord _ _ _ _ hmake harises rfl rfl
    exact ⟨_, _, harises, rfl, rfl, rfl, hr, hb⟩
  · obtain ⟨t, c, _, ht, _, rfl, _, hb⟩ := hpublished swapCalls 0 _ rfl rfl
    cases ht
    exact ⟨_, _, rfl, rfl, hb⟩

end MethodInstance
end Monomorph
