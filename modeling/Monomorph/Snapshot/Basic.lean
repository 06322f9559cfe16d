import Monomorph.Metadata.Basic

/-!
# Monomorph.Snapshot.Basic

The contents of a snapshot file: declarations of types with their fields and methods, and
requests for instances. Their signatures mention types by full name, and generic parameters by
number.
-/

namespace Monomorph

inductive NamedSig where
  | primitive (type : Primitive)
  /-- A type of the snapshot; its definition tells whether it is a value type. -/
  | type (name : String)
  | ptr (next : NamedSig)
  | byRef (next : NamedSig)
  | pinned (next : NamedSig)
  | szArray (next : NamedSig)
  | array (element : NamedSig) (rank : Nat) (sizes : List Nat) (lowerBounds : List Int)
  | modReqd (modifier : String) (next : NamedSig)
  | modOpt (modifier : String) (next : NamedSig)
  | genericInst (generic : String) (args : List NamedSig)
  /-- A parameter of the type `owner`, or of the enclosing type. -/
  | typeParam (number : Nat) (owner : Option String)
  | methodParam (number : Nat)
  | unsupported (element : ElementType)

structure FieldDecl where
  name : String
  type : NamedSig
  isStatic : Bool

structure HandlerDecl where
  kind : HandlerKind
  tryStart : Nat
  tryEnd : Nat
  handlerStart : Nat
  handlerEnd : Nat
  filterStart : Option Nat
  catchType : Option NamedSig

/-- A declaration of a method body; its instructions mention no signatures. -/
structure BodyDecl where
  locals : List NamedSig
  handlers : List HandlerDecl
  instructions : List Instruction

structure MethodDecl where
  name : String
  callConv : CallConv
  attributes : MethodAttributes
  genericParams : Nat
  ret : NamedSig
  params : List NamedSig
  sentinel : Option (List NamedSig)
  body : Option BodyDecl

structure TypeDecl where
  nameSpace : String
  name : String
  corlib : Bool
  valueType : Bool
  genericParams : Nat
  fields : List FieldDecl
  methods : List MethodDecl

def TypeDecl.fullName (t : TypeDecl) : String :=
  qualifiedName t.nameSpace t.name

/-- A request for an instance: of a method if one is named, else of a field if one is named,
else of the type alone. -/
structure RequestDecl where
  type : String
  typeArgs : List NamedSig
  method : Option String
  methodArgs : List NamedSig
  field : Option String

structure Snapshot where
  types : List TypeDecl
  requests : List RequestDecl

end Monomorph
