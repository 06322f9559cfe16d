import Monomorph.Proofs.Catalog.Requests
import Monomorph.Proofs.Signature.Congruence
import Monomorph.Proofs.Signature.Printed
import Monomorph.Report

/-!
# Monomorph.Proofs.Instance.Owner

What the records of methods and fields take from the instance of their type.

Equal keys of types do not mean equal arguments. But where names are plain, arguments under one key
are written the same (`TypeInstance.Alike`), and then so is everything that they are substituted
into.

* `TypeInstance.alike_of_key`: instances of one type with one key are alike.
* `TypeInstance.Alike.methodReport`, `TypeInstance.Alike.fieldReport`: in instances that are alike,
  methods and fields have the same reports.
-/

namespace Monomorph

open Sig (SameText)

/-! ## Keys of what is written the same -/

namespace Key

variable {name : String} {args params params' : List Sig} {ret ret' type type' : Sig}
  {callConv : CallConv}

theorem ofField_of_sameText (h : type.SameText false type') :
    ofField name type = ofField name type' := by
  rw [ofField, ofField, h]

theorem ofMethod_of_sameText (hr : ret.SameText false ret')
    (hp : List.Forall₂ (SameText false) params params') :
    ofMethod name args ret params callConv = ofMethod name args ret' params' callConv := by
  rw [ofMethod, ofMethod, hr, signatureTail, signatureTail, Sig.renderList_of_sameText hp]

end Key

namespace TypeInstance

/-- The record of a method of the type, with its concrete signature. -/
def methodInstance (m : Metadata) (o : TypeInstance) (id : MethodDefId) (args : List Sig) :
    Except Error MethodInstance := do
  let d ← m.methodDef id
  let i ← MethodInstance.make o d args
  i.concretize

/-- The record of a field of the type. -/
def fieldInstance (m : Metadata) (o : TypeInstance) (index : Nat) : Except Error FieldInstance := do
  let d ← m.typeDef o.type.id
  match d.fields[index]? with
  | none => .error (.unknownField d.fullName ("#" ++ Numeral.decimal index))
  | some field => FieldInstance.make o field

/-- The instances are of one type and have one key, and their arguments are written the same. -/
structure Alike (o o' : TypeInstance) : Prop where
  type : o.type = o'.type
  key : o.key = o'.key
  args : List.Forall₂ (SameText false) o.args o'.args

/-- With plain names, instances of one type with one key are alike. -/
theorem alike_of_key {o o' : TypeInstance} {key : String} (htype : o.type = o'.type)
    (h : o.key = .ok key) (h' : o'.key = .ok key) (hlen : o.args.length = o'.args.length)
    (hp : Sig.allPlainNames o.args = true) (hp' : Sig.allPlainNames o'.args = true) :
    o.Alike o' := by
  have hname : o.name = o'.name := by rw [name, name, htype]
  refine ⟨htype, h.trans h'.symm, ?_⟩
  rw [TypeInstance.key] at h h'
  have hs := Key.exists_ofType_iff.1 ⟨key, h⟩
  have hs' := Key.exists_ofType_iff.1 ⟨key, h'⟩
  rw [← hname] at h'
  have he := (Key.ofType_eq_iff Script.plain_readable h h' hlen (Key.legible_of_ofType h hp)
    (Key.legible_of_ofType h' hp')).1 rfl
  rw [List.forall₂_iff_get]
  refine ⟨hlen, ?_⟩
  intro k hk hk'
  exact (he.get hk hk').sameText (hs _ (List.get_mem _ _)) (hs' _ (List.get_mem _ _))

namespace Alike

variable {m : Metadata} {o o' : TypeInstance}

theorem make (h : o.Alike o') {d : MethodDef} {args : List Sig} {i : MethodInstance}
    (hi : MethodInstance.make o d args = .ok i) :
    MethodInstance.make o' d args = .ok { i with owner := o' } := by
  have hm := MethodInstance.make_ok hi
  rw [MethodInstance.make, ← h.type]
  rw [MethodInstance.make] at hi
  split at hi
  · cases hi
  · rename_i htype
    rw [if_neg htype]
    split at hi
    · cases hi
    · rename_i hthis
      rw [if_neg hthis]
      split at hi
      · cases hi
      · rename_i hlen
        rw [if_neg hlen, hm]

theorem concreteSig (h : o.Alike o') {i : MethodInstance} (ho : i.owner = o) {c : ConcreteSig}
    (hc : i.concreteSig = .ok c) :
    ∃ c', { i with owner := o' }.concreteSig = .ok c' ∧ c.ret.SameText false c'.ret ∧
      List.Forall₂ (SameText false) c.params c'.params := by
  obtain ⟨hret, hparams, hsentinel, hlocals, _⟩ := MethodInstance.concreteSig_ok hc
  have hb : i.binding.Related (SameText false) { i with owner := o' }.binding := by
    rw [MethodInstance.binding, MethodInstance.binding, ho, ← h.type]
    exact .ofMethod h.args (List.forall₂_same.2 fun _ _ => rfl)
  have hcong := Sig.congruence_sameText false
  obtain ⟨ret, hret', hr⟩ := hcong.exists_substitute hb hret
  obtain ⟨params, hparams', hp⟩ := hcong.exists_substituteAll hb hparams
  obtain ⟨sentinel, hsentinel'⟩ := hcong.exists_substituteList hb hsentinel
  obtain ⟨locals, hlocals'⟩ := hcong.exists_substituteList hb hlocals
  exact ⟨_, MethodInstance.concreteSig_of_ok hret' hparams' hsentinel' hlocals', hr, hp⟩

/-- In instances that are alike, a method has the same report. -/
theorem methodReport (h : o.Alike o') {id : MethodDefId} {args : List Sig} {i : MethodInstance}
    (hi : o.methodInstance m id args = .ok i) :
    ∃ i', o'.methodInstance m id args = .ok i' ∧ i'.report m = i.report m := by
  obtain ⟨d, hd, hi⟩ := exists_of_bind_ok hi
  obtain ⟨j, hj, hi⟩ := exists_of_bind_ok hi
  have hj' := h.make hj
  obtain rfl := MethodInstance.make_ok hj
  obtain ⟨c, hc, rfl⟩ := exists_of_map_ok hi
  obtain ⟨c', hc', hr, hp⟩ := h.concreteSig rfl hc
  refine ⟨⟨o', d, args, some c', [], false, false⟩, ?_, ?_⟩
  · rw [methodInstance, hd]
    show (MethodInstance.make o' d args >>= _) = _
    rw [hj']
    show (MethodInstance.concreteSig _).map _ = _
    rw [hc']
    rfl
  · have hkey : MethodInstance.concretizedKey ⟨o', d, args, some c', [], false, false⟩ =
        MethodInstance.concretizedKey ⟨o, d, args, some c, [], false, false⟩ := by
      simp only [MethodInstance.concretizedKey, MethodInstance.keyFor, MethodInstance.name,
        Key.ofMethod_of_sameText hr hp]
    rw [MethodInstance.report, MethodInstance.report, hkey, h.key]
    rfl

/-- In instances that are alike, a field has the same report. -/
theorem fieldReport (h : o.Alike o') {index : Nat} {i : FieldInstance}
    (hi : o.fieldInstance m index = .ok i) :
    ∃ i', o'.fieldInstance m index = .ok i' ∧ i'.report = i.report := by
  obtain ⟨d, hd, hi⟩ := exists_of_bind_ok hi
  split at hi
  · cases hi
  · rename_i field hf
    obtain ⟨type, htype, hi⟩ := exists_of_bind_ok hi
    obtain ⟨key, hkey, hi⟩ := exists_of_bind_ok hi
    cases hi
    have hb : o.binding.Related (SameText false) o'.binding := by
      rw [binding, binding, ← h.type]
      exact .ofType h.args
    obtain ⟨type', htype', ht⟩ := (Sig.congruence_sameText false).exists_substitute hb htype
    rw [Key.ofField_of_sameText ht] at hkey
    refine ⟨⟨o', field.name, type', field.isStatic, key⟩, ?_, ?_⟩
    · rw [fieldInstance, ← h.type, hd]
      simp [hf, FieldInstance.make, htype', hkey, bind, Except.bind, pure, Except.pure]
    · rw [FieldInstance.report, FieldInstance.report, h.key]

end Alike

end TypeInstance
end Monomorph
