import Monomorph.Instance.Type

/-!
# Monomorph.Instance.Method

A method of a type instance together with arguments for its own generic parameters. A record is
made with the declared signature alone; `MethodInstance.concretize` adds, once, the signature after
substitution. Later only the overrides and the two marks of a record change.
-/

namespace Monomorph

abbrev MethodInstanceId := Nat

structure ConcreteSig where
  receiver : Option Sig
  ret : Sig
  params : List Sig
  sentinel : Option (List Sig)
  locals : Option (List Sig)
  deriving DecidableEq

/-- A list that counts as missing when it is empty. -/
def nonEmpty? {α : Type} : List α → Option (List α)
  | [] => none
  | xs => some xs

structure MethodInstance where
  owner : TypeInstance
  definition : MethodDef
  args : List Sig
  /-- The types after substitution, once they are known. -/
  concrete : Option ConcreteSig
  /-- The methods bound to virtual calls, in the order in which they were added, each once. -/
  overrides : List MethodInstanceId
  processed : Bool
  skipped : Bool
  deriving DecidableEq

namespace MethodInstance

/-- The record of a method in a type instance, not yet concrete. -/
def make (owner : TypeInstance) (d : MethodDef) (args : List Sig) : Except Error MethodInstance :=
  if d.declaringType ≠ owner.type.id then .error (.declaringTypeMismatch d.name owner.name)
  else if d.hasThis = d.isStatic then .error (.receiverMismatch d.name)
  else if args.length ≠ d.sig.genericParams then
    .error (.argCountMismatch d.name d.sig.genericParams args.length)
  else .ok ⟨owner, d, args, none, [], false, false⟩

def name (i : MethodInstance) : String :=
  i.definition.name

def hasThis (i : MethodInstance) : Bool :=
  i.definition.hasThis

def isVirtual (i : MethodInstance) : Bool :=
  i.definition.attributes.isVirtual

/-! ## The body -/

def declaredLocals (i : MethodInstance) : Option (List Sig) :=
  i.definition.body.bind fun b => nonEmpty? b.locals

def handlers (i : MethodInstance) : Option (List Handler) :=
  i.definition.body.bind fun b => nonEmpty? b.handlers

def instructions (i : MethodInstance) : Option (List Instruction) :=
  i.definition.body.bind fun b => nonEmpty? b.instructions

/-! ## The concrete signature -/

def binding (i : MethodInstance) : Binding :=
  .ofMethod i.owner.type.id i.owner.args i.definition.id i.args

def concreteSig (i : MethodInstance) : Except Error ConcreteSig := do
  let b := some i.binding
  let ret ← Sig.substitute? b i.definition.sig.ret
  let params ← Sig.substituteAll? b i.definition.sig.params
  let sentinel ← Sig.substituteList? b i.definition.sig.sentinel
  let locals ← Sig.substituteList? b i.declaredLocals
  let receiver := if i.hasThis then some i.owner.receiver else none
  return ⟨receiver, ret, params, sentinel, locals⟩

/-- The record with its concrete signature. A record that has it already is refused. -/
def concretize (i : MethodInstance) : Except Error MethodInstance :=
  match i.concrete with
  | some _ => .error (.alreadyConcretized i.name)
  | none => i.concreteSig.map fun c => { i with concrete := some c }

/-! ## Keys -/

def keyFor (i : MethodInstance) (ret : Sig) (params : List Sig) : Except Error String :=
  (Key.ofMethod i.name i.args ret params i.definition.sig.callConv).map fun key =>
    key ++ "|" ++ i.definition.attributes.hex

def declaredKey (i : MethodInstance) : Except Error String :=
  i.keyFor i.definition.sig.ret i.definition.sig.params

def concretizedKey (i : MethodInstance) : Except Error String :=
  match i.concrete with
  | some c => i.keyFor c.ret c.params
  | none => .error (.notConcretized i.name)

/-- The name for messages: owner, name and the number of arguments. -/
def describe (i : MethodInstance) : String :=
  let name := i.owner.describe ++ "::" ++ i.name
  match i.args with
  | [] => name
  | args => name ++ "<" ++ Numeral.decimal args.length ++ ">"

/-! ## Overrides -/

/-- The record with one more override, unless it has that one already; also whether it is new. -/
def addOverride (i : MethodInstance) (target : MethodInstanceId) : MethodInstance × Bool :=
  if i.overrides.contains target then (i, false)
  else ({ i with overrides := i.overrides ++ [target] }, true)

def hasOverrides (i : MethodInstance) : Bool :=
  !i.overrides.isEmpty

end MethodInstance
end Monomorph
