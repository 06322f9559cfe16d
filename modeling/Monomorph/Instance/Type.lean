import Monomorph.Metadata.Basic
import Monomorph.Signature.Substitution

/-!
# Monomorph.Instance.Type

A type definition together with arguments for its generic parameters.
-/

namespace Monomorph

structure TypeInstance where
  type : TypeRef
  isValueType : Bool
  args : List Sig
  deriving DecidableEq

namespace TypeInstance

/-- The instance of a type definition; the number of arguments has to fit. -/
def make (t : TypeDef) (args : List Sig) : Except Error TypeInstance :=
  if args.length = t.genericParams then .ok ⟨t.toRef, t.valueType, args⟩
  else .error (.argCountMismatch t.fullName t.genericParams args.length)

def name (i : TypeInstance) : String :=
  i.type.fullName

def typeSig (i : TypeInstance) : Sig :=
  if i.isValueType then .valueType i.type else .classType i.type

def sig (i : TypeInstance) : Sig :=
  match i.args with
  | [] => i.typeSig
  | args => .genericInst i.typeSig args

/-- The receiver type of the methods: value types are passed by reference. -/
def receiver (i : TypeInstance) : Sig :=
  if i.isValueType then .byRef i.sig else i.sig

def isConcrete (i : TypeInstance) : Except Error Bool :=
  Sig.areConcrete i.args

def binding (i : TypeInstance) : Binding :=
  .ofType i.type.id i.args

def key (i : TypeInstance) : Except Error String :=
  Key.ofType i.name i.args

/-- The name for messages, with the number of arguments. -/
def describe (i : TypeInstance) : String :=
  match i.args with
  | [] => i.name
  | args => i.name ++ "<" ++ Numeral.decimal args.length ++ ">"

end TypeInstance
end Monomorph
