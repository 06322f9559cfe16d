import Monomorph.Error

/-!
# Monomorph.Signature.Substitution

Arguments for generic parameters.

A `Binding` names the definitions whose parameters are in scope and gives their arguments;
`Binding.lookup` finds the argument of one parameter. `Sig.replace` replaces every parameter in
scope and refuses elements that are not handled, and `Sig.substitute` leaves a signature without
parameters as it is. `Sig.isConcrete` is the stricter test for type arguments: a method's
parameter among them is an error, not an answer.

The generic type of an instance is never looked into; only its arguments are.
-/

namespace Monomorph

inductive Binding where
  /-- Only the parameters of a type are in scope. -/
  | ofType (type : TypeDefId) (typeArgs : List Sig)
  /-- The parameters of a type and of one of its methods are in scope. -/
  | ofMethod (type : TypeDefId) (typeArgs : List Sig) (method : MethodDefId)
    (methodArgs : List Sig)

namespace Binding

def pick (args : List Sig) (level : ParamLevel) (number : Nat) : Except Error Sig :=
  match args[number]? with
  | some s => .ok s
  | none => .error (.argOutOfRange level number args.length)

def typeArg (number : Nat) (owner : TypeRef) : Binding → Except Error (Option Sig)
  | ofType type args =>
    if owner.id = type then (pick args .type number).map some else .ok none
  | ofMethod type args _ _ =>
    if owner.id = type then (pick args .type number).map some else .ok none

def methodArg (number : Nat) (owner : MethodDefId) : Binding → Except Error (Option Sig)
  | ofType _ _ => .ok none
  | ofMethod _ _ method args =>
    if owner = method then (pick args .method number).map some else .ok none

/-- The argument for a node: nothing, unless it is a parameter in scope. -/
def lookup (b : Binding) : Sig → Except Error (Option Sig)
  | .typeParam number owner => b.typeArg number owner
  | .methodParam number owner => b.methodArg number owner
  | _ => .ok none

end Binding

namespace Sig

/-! ## Replacing parameters -/

mutual

def replace (b : Binding) : Sig → Except Error Sig
  | .primitive p => .ok (.primitive p)
  | .classType t => .ok (.classType t)
  | .valueType t => .ok (.valueType t)
  | .ptr next => (next.replace b).map .ptr
  | .byRef next => (next.replace b).map .byRef
  | .pinned next => (next.replace b).map .pinned
  | .szArray next => (next.replace b).map .szArray
  | .array element rank sizes lowerBounds =>
    (element.replace b).map (.array · rank sizes lowerBounds)
  | .modReqd modifier next => (next.replace b).map (.modReqd modifier)
  | .modOpt modifier next => (next.replace b).map (.modOpt modifier)
  | .genericInst generic args => (replaceList b args).map (.genericInst generic)
  | .typeParam number owner =>
    (b.typeArg number owner).map (·.getD (.typeParam number owner))
  | .methodParam number owner =>
    (b.methodArg number owner).map (·.getD (.methodParam number owner))
  | .unsupported e => .error (.unsupportedElement e)

def replaceList (b : Binding) : List Sig → Except Error (List Sig)
  | [] => .ok []
  | s :: rest =>
    match s.replace b with
    | .error e => .error e
    | .ok t => (replaceList b rest).map (t :: ·)

end

mutual

/-- Whether a parameter occurs, in scope or not. -/
def hasParam : Sig → Bool
  | .primitive _ => false
  | .classType _ => false
  | .valueType _ => false
  | .ptr next => next.hasParam
  | .byRef next => next.hasParam
  | .pinned next => next.hasParam
  | .szArray next => next.hasParam
  | .array element _ _ _ => element.hasParam
  | .modReqd _ next => next.hasParam
  | .modOpt _ next => next.hasParam
  | .genericInst _ args => anyHasParam args
  | .typeParam _ _ => true
  | .methodParam _ _ => true
  | .unsupported _ => false

def anyHasParam : List Sig → Bool
  | [] => false
  | s :: rest => s.hasParam || anyHasParam rest

end

/-- The signature under a binding. A signature without parameters stays as it is, even with an
element inside that is not handled. -/
def substitute (b : Binding) (s : Sig) : Except Error Sig :=
  if s.hasParam then s.replace b else .ok s

def substitute? (b : Option Binding) (s : Sig) : Except Error Sig :=
  match b with
  | some b => s.substitute b
  | none => .ok s

def substituteAll? (b : Option Binding) (ss : List Sig) : Except Error (List Sig) :=
  ss.mapM (substitute? b)

def substituteList? (b : Option Binding) : Option (List Sig) → Except Error (Option (List Sig))
  | none => .ok none
  | some ss => (substituteAll? b ss).map some

/-! ## Concreteness of type arguments -/

mutual

/-- Whether a type argument mentions no parameter. The parameters are met from left to right:
one of a type answers `false`, and one of a method is an error. -/
def isConcrete : Sig → Except Error Bool
  | .primitive _ => .ok true
  | .classType _ => .ok true
  | .valueType _ => .ok true
  | .ptr next => next.isConcrete
  | .byRef next => next.isConcrete
  | .pinned next => next.isConcrete
  | .szArray next => next.isConcrete
  | .array element _ _ _ => element.isConcrete
  | .modReqd _ next => next.isConcrete
  | .modOpt _ next => next.isConcrete
  | .genericInst _ args => areConcrete args
  | .typeParam _ _ => .ok false
  | .methodParam number _ => .error (.methodParamInTypeArgs number)
  | .unsupported _ => .ok true

def areConcrete : List Sig → Except Error Bool
  | [] => .ok true
  | s :: rest =>
    match s.isConcrete with
    | .error e => .error e
    | .ok false => .ok false
    | .ok true => areConcrete rest

end

def areConcrete? : Option (List Sig) → Except Error Bool
  | none => .ok true
  | some ss => areConcrete ss

theorem anyHasParam_eq_any (ss : List Sig) : anyHasParam ss = ss.any hasParam := by
  induction ss with
  | nil => rfl
  | cons s rest ih => simp [anyHasParam, ih]

theorem replaceList_eq_mapM (b : Binding) (ss : List Sig) :
    replaceList b ss = ss.mapM (replace b) := by
  induction ss with
  | nil => rfl
  | cons s rest ih =>
    rw [replaceList, List.mapM_cons, ih]
    cases s.replace b with
    | error e => rfl
    | ok t => cases rest.mapM (replace b) <;> rfl

end Sig
end Monomorph
