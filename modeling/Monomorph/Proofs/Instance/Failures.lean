import Monomorph.Instance.Field
import Monomorph.Instance.Method
import Monomorph.Proofs.Signature.Rendering

/-!
# Monomorph.Proofs.Instance.Failures

What can go wrong when a record is made.

A signature may contain an element that is not handled, an array without dimensions, or a parameter
that has no argument. Besides, the number of arguments may not fit, and a method may disagree with
itself on its receiver. The other causes mean that records and definitions do not fit together;
each of them is excluded by what the lemma about it asks for.
-/

namespace Monomorph

/-- The signature itself is at fault, or the arguments that it is used with. -/
inductive Error.OfSignature : Error → Prop where
  | unsupportedElement (element : ElementType) : OfSignature (.unsupportedElement element)
  | zeroRankArray : OfSignature .zeroRankArray
  | argOutOfRange (level : ParamLevel) (number count : Nat) :
      OfSignature (.argOutOfRange level number count)

/-- The request is at fault, or a definition that it is for. -/
inductive Error.OfRequest : Error → Prop where
  | signature {e : Error} : e.OfSignature → OfRequest e
  | argCountMismatch (name : String) (expected found : Nat) :
      OfRequest (.argCountMismatch name expected found)
  | receiverMismatch (method : String) : OfRequest (.receiverMismatch method)

/-! ## Signatures -/

theorem failsOnly_arraySuffix (rank : Nat) (sizes : List Nat) (lowerBounds : List Int) :
    FailsOnly Error.OfSignature (arraySuffix rank sizes lowerBounds) := by
  unfold arraySuffix
  split
  · exact failsOnly_error .zeroRankArray
  · exact failsOnly_ok _
  · exact failsOnly_ok _

namespace Sig

variable {owners : Bool} {b : Binding}

theorem failsOnly_render (owners : Bool) (s : Sig) :
    FailsOnly Error.OfSignature (s.render owners) := by
  induction s using Sig.rec
    (motive_2 := fun ss => ∀ s ∈ ss, FailsOnly Error.OfSignature (s.render owners)) with
  | ptr _ ih | byRef _ ih | szArray _ ih | modReqd _ _ ih | modOpt _ _ ih => exact ih.map _
  | pinned _ ih => exact ih
  | array element rank sizes lowerBounds ih =>
    rw [render]
    split
    · rename_i e he
      exact failsOnly_error (ih e he)
    · exact (failsOnly_arraySuffix rank sizes lowerBounds).map _
  | genericInst generic args ihg ih =>
    rw [render]
    split
    · rename_i e he
      exact failsOnly_error (ihg e he)
    · rw [renderEach_eq_mapM]
      exact (failsOnly_mapM ih).map _
  | unsupported e => exact failsOnly_error (.unsupportedElement e)
  | nil s hs => cases hs
  | cons s rest ihs ih t ht =>
    rcases List.mem_cons.1 ht with rfl | ht
    · exact ihs
    · exact ih t ht
  | _ => exact failsOnly_ok _

theorem failsOnly_renderList (owners : Bool) (ss : List Sig) :
    FailsOnly Error.OfSignature (renderList owners ss) := by
  rw [renderList, renderEach_eq_mapM]
  exact (failsOnly_mapM fun s _ => failsOnly_render owners s).map _

theorem failsOnly_pick (args : List Sig) (level : ParamLevel) (number : Nat) :
    FailsOnly Error.OfSignature (Binding.pick args level number) := by
  rw [Binding.pick]
  split
  · exact failsOnly_ok _
  · exact failsOnly_error (.argOutOfRange level number args.length)

theorem failsOnly_typeArg (b : Binding) (number : Nat) (owner : TypeRef) :
    FailsOnly Error.OfSignature (b.typeArg number owner) := by
  cases b with
  | ofType type args | ofMethod type args _ _ =>
    rw [Binding.typeArg]
    split
    · exact (failsOnly_pick args .type number).map _
    · exact failsOnly_ok _

theorem failsOnly_methodArg (b : Binding) (number : Nat) (owner : MethodDefId) :
    FailsOnly Error.OfSignature (b.methodArg number owner) := by
  cases b with
  | ofType _ _ => exact failsOnly_ok _
  | ofMethod _ _ method args =>
    rw [Binding.methodArg]
    split
    · exact (failsOnly_pick args .method number).map _
    · exact failsOnly_ok _

theorem failsOnly_replace (b : Binding) (s : Sig) :
    FailsOnly Error.OfSignature (s.replace b) := by
  induction s using Sig.rec
    (motive_2 := fun ss => ∀ s ∈ ss, FailsOnly Error.OfSignature (s.replace b)) with
  | ptr _ ih | byRef _ ih | pinned _ ih | szArray _ ih | array _ _ _ _ ih | modReqd _ _ ih
  | modOpt _ _ ih => exact ih.map _
  | genericInst generic args _ ih =>
    rw [replace, replaceList_eq_mapM]
    exact (failsOnly_mapM ih).map _
  | typeParam number owner => exact (failsOnly_typeArg b number owner).map _
  | methodParam number owner => exact (failsOnly_methodArg b number owner).map _
  | unsupported e => exact failsOnly_error (.unsupportedElement e)
  | nil s hs => cases hs
  | cons s rest ihs ih t ht =>
    rcases List.mem_cons.1 ht with rfl | ht
    · exact ihs
    · exact ih t ht
  | _ => exact failsOnly_ok _

theorem failsOnly_substitute (b : Binding) (s : Sig) :
    FailsOnly Error.OfSignature (s.substitute b) := by
  rw [substitute]
  split
  · exact failsOnly_replace b s
  · exact failsOnly_ok s

theorem failsOnly_substituteAll (b : Binding) (ss : List Sig) :
    FailsOnly Error.OfSignature (substituteAll? (some b) ss) :=
  failsOnly_mapM fun s _ => failsOnly_substitute b s

theorem failsOnly_substituteList (b : Binding) (ss? : Option (List Sig)) :
    FailsOnly Error.OfSignature (substituteList? (some b) ss?) := by
  cases ss? with
  | none => exact failsOnly_ok none
  | some ss => exact (failsOnly_substituteAll b ss).map _

end Sig

/-! ## Keys -/

namespace Key

theorem failsOnly_ofType (name : String) (args : List Sig) :
    FailsOnly Error.OfSignature (ofType name args) := by
  cases args with
  | nil => exact failsOnly_ok _
  | cons a args => exact (Sig.failsOnly_renderList true (a :: args)).map _

theorem failsOnly_ofField (name : String) (type : Sig) :
    FailsOnly Error.OfSignature (ofField name type) :=
  (Sig.failsOnly_render false type).map _

theorem failsOnly_ofMethod (name : String) (args : List Sig) (ret : Sig) (params : List Sig)
    (callConv : CallConv) :
    FailsOnly Error.OfSignature (ofMethod name args ret params callConv) := by
  have hargs : FailsOnly Error.OfSignature (methodArgs args) := by
    cases args with
    | nil => exact failsOnly_ok _
    | cons a args => exact (Sig.failsOnly_renderList false (a :: args)).map _
  exact (Sig.failsOnly_render false ret).bind fun _ _ => hargs.bind fun _ _ =>
    ((Sig.failsOnly_renderList false params).map _).bind fun _ _ => failsOnly_ok _

end Key

/-! ## Records -/

theorem TypeInstance.failsOnly_make (t : TypeDef) (args : List Sig) :
    FailsOnly Error.OfRequest (make t args) := by
  rw [make]
  split
  · exact failsOnly_ok _
  · exact failsOnly_error (.argCountMismatch t.fullName t.genericParams args.length)

theorem FieldInstance.failsOnly_make (owner : TypeInstance) (d : FieldDef) :
    FailsOnly Error.OfSignature (make owner d) :=
  (Sig.failsOnly_substitute owner.binding d.type).bind fun type _ =>
    (Key.failsOnly_ofField d.name type).bind fun _ _ => failsOnly_ok _

namespace MethodInstance

theorem failsOnly_make {owner : TypeInstance} {d : MethodDef} (args : List Sig)
    (h : d.declaringType = owner.type.id) : FailsOnly Error.OfRequest (make owner d args) := by
  rw [make]
  split
  · rename_i hne
    exact absurd h hne
  · split
    · exact failsOnly_error (.receiverMismatch d.name)
    · split
      · exact failsOnly_error (.argCountMismatch d.name d.sig.genericParams args.length)
      · exact failsOnly_ok _

theorem failsOnly_concreteSig (i : MethodInstance) :
    FailsOnly Error.OfSignature i.concreteSig :=
  (Sig.failsOnly_substitute i.binding _).bind fun _ _ =>
    (Sig.failsOnly_substituteAll i.binding _).bind fun _ _ =>
      (Sig.failsOnly_substituteList i.binding _).bind fun _ _ =>
        (Sig.failsOnly_substituteList i.binding _).bind fun _ _ => failsOnly_ok _

variable {i : MethodInstance}

theorem failsOnly_concretize (h : i.concrete = none) :
    FailsOnly Error.OfSignature i.concretize := by
  rw [concretize, h]
  exact i.failsOnly_concreteSig.map _

theorem failsOnly_keyFor (i : MethodInstance) (ret : Sig) (params : List Sig) :
    FailsOnly Error.OfSignature (i.keyFor ret params) :=
  (Key.failsOnly_ofMethod i.name i.args ret params i.definition.sig.callConv).map _

theorem failsOnly_declaredKey (i : MethodInstance) : FailsOnly Error.OfSignature i.declaredKey :=
  i.failsOnly_keyFor _ _

theorem failsOnly_concretizedKey {c : ConcreteSig} (h : i.concrete = some c) :
    FailsOnly Error.OfSignature i.concretizedKey := by
  rw [concretizedKey, h]
  exact i.failsOnly_keyFor _ _

end MethodInstance
end Monomorph
