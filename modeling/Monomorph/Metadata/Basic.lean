import Monomorph.Key

/-!
# Monomorph.Metadata.Basic

Definitions of types, fields and methods.
-/

namespace Monomorph

structure MethodSig where
  callConv : CallConv
  genericParams : Nat
  ret : Sig
  params : List Sig
  /-- The parameters behind the sentinel of a variable-length argument list. -/
  sentinel : Option (List Sig)
  deriving DecidableEq

namespace MethodSig

def plain (callConv : CallConv) (ret : Sig) (params : List Sig) : MethodSig :=
  ⟨callConv, 0, ret, params, none⟩

/-- The signature with `count` generic parameters and the flag that goes with them. -/
def withGenericParams (s : MethodSig) (count : Nat) : MethodSig :=
  { s with genericParams := count, callConv := s.callConv.join .generic }

def hasThis (s : MethodSig) : Bool :=
  s.callConv.hasThis

end MethodSig

inductive HandlerKind where
  | catching
  | filtering
  | finalizing
  | faulting
  deriving DecidableEq

namespace HandlerKind

def all : List HandlerKind :=
  [catching, filtering, finalizing, faulting]

def name : HandlerKind → String
  | catching => "catch"
  | filtering => "filter"
  | finalizing => "finally"
  | faulting => "fault"

def ofName? (s : String) : Option HandlerKind :=
  all.find? (·.name == s)

theorem ofName?_name (k : HandlerKind) : ofName? k.name = some k := by
  cases k <;> decide

end HandlerKind

/-- A region of code with its handler; positions are offsets of instructions. -/
structure Handler where
  kind : HandlerKind
  tryStart : Nat
  tryEnd : Nat
  handlerStart : Nat
  handlerEnd : Nat
  filterStart : Option Nat
  catchType : Option Sig
  deriving DecidableEq

inductive Operand where
  | none
  | int (value : Int)
  /-- A double, as its 64 bits. -/
  | float (bits : UInt64)
  | string (value : String)
  | branch (target : Nat)
  | switch (targets : List Nat)
  | token (name : String)
  deriving DecidableEq

structure Instruction where
  offset : Nat
  opcode : String
  operand : Operand
  deriving DecidableEq

structure MethodBody where
  locals : List Sig
  handlers : List Handler
  instructions : List Instruction
  deriving DecidableEq

structure FieldDef where
  name : String
  type : Sig
  isStatic : Bool
  deriving DecidableEq

/-- A type definition, with the positions of its methods and with its fields, in the order in
which they were added. -/
structure TypeDef where
  id : TypeDefId
  nameSpace : String
  name : String
  corlib : Bool
  valueType : Bool
  genericParams : Nat
  methods : List MethodDefId
  fields : List FieldDef
  deriving DecidableEq

namespace TypeDef

def fullName (t : TypeDef) : String :=
  qualifiedName t.nameSpace t.name

def toRef (t : TypeDef) : TypeRef :=
  ⟨t.id, t.nameSpace, t.name, t.corlib⟩

def sig (t : TypeDef) : Sig :=
  if t.valueType then .valueType t.toRef else .classType t.toRef

@[simp] theorem toRef_fullName (t : TypeDef) : t.toRef.fullName = t.fullName := rfl

@[simp] theorem toRef_id (t : TypeDef) : t.toRef.id = t.id := rfl

end TypeDef

structure MethodDef where
  id : MethodDefId
  declaringType : TypeDefId
  name : String
  sig : MethodSig
  attributes : MethodAttributes
  body : Option MethodBody
  deriving DecidableEq

namespace MethodDef

def isStatic (m : MethodDef) : Bool :=
  m.attributes.isStatic

def hasThis (m : MethodDef) : Bool :=
  m.sig.hasThis

def signatureKey (m : MethodDef) : Except Error String :=
  Key.ofDeclaration m.name m.sig.genericParams m.sig.ret m.sig.params m.sig.callConv

end MethodDef
end Monomorph
