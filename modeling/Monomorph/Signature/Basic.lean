/-!
# Monomorph.Signature.Basic

Type signatures. A signature is a tree in which every node has at most one child of its own;
only an instance of a generic type carries a list of arguments besides. Definitions are referred
to by their position, which serves for comparison alone.

`Sig.same_iff` states that the comparison `Sig.same` decides equality.
-/

namespace Monomorph

/-- The position of a type definition in its metadata. -/
abbrev TypeDefId := Nat

abbrev MethodDefId := Nat

/-- The kind of a node of a signature, with the kinds that occur in files but are not handled. -/
inductive ElementType where
  | corLib
  | classType
  | valueType
  | ptr
  | byRef
  | pinned
  | szArray
  | array
  | modReqd
  | modOpt
  | genericInst
  | typeParam
  | methodParam
  | fnPtr
  | sentinel
  | valueArray
  | module
  | internal
  deriving DecidableEq

namespace ElementType

/-- Every element type, in the order of the encoding. -/
def all : List ElementType :=
  [corLib, classType, valueType, ptr, byRef, pinned, szArray, array, modReqd, modOpt,
    genericInst, typeParam, methodParam, fnPtr, sentinel, valueArray, module, internal]

def name : ElementType → String
  | corLib => "CorLib"
  | classType => "Class"
  | valueType => "ValueType"
  | ptr => "Ptr"
  | byRef => "ByRef"
  | pinned => "Pinned"
  | szArray => "SzArray"
  | array => "Array"
  | modReqd => "CModReqd"
  | modOpt => "CModOpt"
  | genericInst => "GenericInst"
  | typeParam => "Var"
  | methodParam => "MVar"
  | fnPtr => "FnPtr"
  | sentinel => "Sentinel"
  | valueArray => "ValueArray"
  | module => "Module"
  | internal => "Internal"

def ofName? (s : String) : Option ElementType :=
  all.find? (·.name == s)

theorem ofName?_name (e : ElementType) : ofName? e.name = some e := by
  cases e <;> decide

end ElementType

inductive Primitive where
  | void
  | boolean
  | char
  | sbyte
  | byte
  | int16
  | uint16
  | int32
  | uint32
  | int64
  | uint64
  | single
  | double
  | string
  | typedReference
  | intPtr
  | uintPtr
  | object
  deriving DecidableEq

namespace Primitive

def all : List Primitive :=
  [void, boolean, char, sbyte, byte, int16, uint16, int32, uint32, int64, uint64, single, double,
    string, typedReference, intPtr, uintPtr, object]

def name : Primitive → String
  | void => "Void"
  | boolean => "Boolean"
  | char => "Char"
  | sbyte => "SByte"
  | byte => "Byte"
  | int16 => "Int16"
  | uint16 => "UInt16"
  | int32 => "Int32"
  | uint32 => "UInt32"
  | int64 => "Int64"
  | uint64 => "UInt64"
  | single => "Single"
  | double => "Double"
  | string => "String"
  | typedReference => "TypedReference"
  | intPtr => "IntPtr"
  | uintPtr => "UIntPtr"
  | object => "Object"

def fullName (p : Primitive) : String :=
  "System." ++ p.name

def ofName? (s : String) : Option Primitive :=
  all.find? (·.name == s)

theorem ofName?_name (p : Primitive) : ofName? p.name = some p := by
  cases p <;> decide

/-- Strings and objects are references, and `Void` has no values. -/
def isValueType : Primitive → Bool
  | string => false
  | object => false
  | void => false
  | _ => true

end Primitive

/-- A namespace and a name, joined by a dot unless the namespace is empty. -/
def qualifiedName (nameSpace name : String) : String :=
  if nameSpace.isEmpty then name else nameSpace ++ "." ++ name

structure TypeRef where
  id : TypeDefId
  nameSpace : String
  name : String
  /-- Whether the type belongs to the base library. -/
  corlib : Bool
  deriving DecidableEq

def TypeRef.fullName (t : TypeRef) : String :=
  qualifiedName t.nameSpace t.name

inductive Sig where
  | primitive (type : Primitive)
  | classType (type : TypeRef)
  | valueType (type : TypeRef)
  | ptr (next : Sig)
  | byRef (next : Sig)
  | pinned (next : Sig)
  /-- A one-dimensional array that starts at zero. -/
  | szArray (next : Sig)
  /-- An array with sizes and lower bounds for its leading dimensions, each list of any length. -/
  | array (element : Sig) (rank : Nat) (sizes : List Nat) (lowerBounds : List Int)
  | modReqd (modifier : TypeRef) (next : Sig)
  | modOpt (modifier : TypeRef) (next : Sig)
  | genericInst (generic : Sig) (args : List Sig)
  | typeParam (number : Nat) (owner : TypeRef)
  | methodParam (number : Nat) (owner : MethodDefId)
  /-- An element that can be read but not handled. -/
  | unsupported (element : ElementType)

namespace Sig

instance : Inhabited Sig := ⟨.primitive .void⟩

def elementType : Sig → ElementType
  | .primitive _ => .corLib
  | .classType _ => .classType
  | .valueType _ => .valueType
  | .ptr _ => .ptr
  | .byRef _ => .byRef
  | .pinned _ => .pinned
  | .szArray _ => .szArray
  | .array .. => .array
  | .modReqd .. => .modReqd
  | .modOpt .. => .modOpt
  | .genericInst .. => .genericInst
  | .typeParam .. => .typeParam
  | .methodParam .. => .methodParam
  | .unsupported e => e

/-- The single child. The generic type of an instance does not count as one. -/
def next? : Sig → Option Sig
  | .ptr next => some next
  | .byRef next => some next
  | .pinned next => some next
  | .szArray next => some next
  | .array element _ _ _ => some element
  | .modReqd _ next => some next
  | .modOpt _ next => some next
  | _ => none

def typeDef? : Sig → Option TypeDefId
  | .classType t => some t.id
  | .valueType t => some t.id
  | .genericInst generic _ => generic.typeDef?
  | _ => none

/-- Whether values of the type are held in place rather than by reference. -/
def isValueType : Sig → Bool
  | .valueType _ => true
  | .genericInst generic _ => generic.isValueType
  | .primitive p => p.isValueType
  | _ => false

def isParam : Sig → Bool
  | .typeParam .. => true
  | .methodParam .. => true
  | _ => false

def size? (s : Sig) (d : Nat) : Option Nat :=
  match s with
  | .array _ _ sizes _ => sizes[d]?
  | _ => none

def lowerBound? (s : Sig) (d : Nat) : Option Int :=
  match s with
  | .array _ _ _ lowerBounds => lowerBounds[d]?
  | _ => none

/-! ## Equality -/

mutual

def same : Sig → Sig → Bool
  | .primitive p, .primitive q => p == q
  | .classType t, .classType u => t == u
  | .valueType t, .valueType u => t == u
  | .ptr s, .ptr t => s.same t
  | .byRef s, .byRef t => s.same t
  | .pinned s, .pinned t => s.same t
  | .szArray s, .szArray t => s.same t
  | .array s r zs bs, .array t q ys cs => s.same t && r == q && zs == ys && bs == cs
  | .modReqd m s, .modReqd n t => m == n && s.same t
  | .modOpt m s, .modOpt n t => m == n && s.same t
  | .genericInst g as, .genericInst h bs => g.same h && sameList as bs
  | .typeParam n o, .typeParam m p => n == m && o == p
  | .methodParam n o, .methodParam m p => n == m && o == p
  | .unsupported e, .unsupported f => e == f
  | _, _ => false

def sameList : List Sig → List Sig → Bool
  | [], [] => true
  | s :: ss, t :: ts => s.same t && sameList ss ts
  | _, _ => false

end

mutual

theorem same_iff (s t : Sig) : s.same t = true ↔ s = t := by
  cases s <;> cases t <;> simp [same, same_iff, sameList_iff, and_assoc]

theorem sameList_iff (ss ts : List Sig) : sameList ss ts = true ↔ ss = ts := by
  cases ss <;> cases ts <;> simp [sameList, same_iff, sameList_iff]

end

instance : DecidableEq Sig :=
  fun s t => decidable_of_iff (s.same t = true) (same_iff s t)

end Sig
end Monomorph
