import Monomorph.Metadata.Basic

/-!
# Monomorph.Metadata.Definitions

The table of all definitions. Types and methods are numbered in the order in which they are
added, and nothing is ever removed. Full names of types are unique, since adding a second type
of the same full name fails (`addType_of_findType?_some`).
-/

namespace Monomorph

/-- All type and method definitions; the position of a definition is its identifier. -/
structure Metadata where
  types : List TypeDef
  methods : List MethodDef
  deriving DecidableEq

namespace Metadata

def empty : Metadata :=
  ⟨[], []⟩

instance : EmptyCollection Metadata := ⟨empty⟩

/-! ## Looking up -/

def typeDef (m : Metadata) (id : TypeDefId) : Except Error TypeDef :=
  match m.types[id]? with
  | some t => .ok t
  | none => .error .outsideTable

def methodDef (m : Metadata) (id : MethodDefId) : Except Error MethodDef :=
  match m.methods[id]? with
  | some d => .ok d
  | none => .error .outsideTable

/-- The type of a full name, however the name is divided into namespace and name. -/
def findType? (m : Metadata) (fullName : String) : Option TypeDefId :=
  m.types.findIdx? (·.fullName == fullName)

def findType (m : Metadata) (fullName : String) : Except Error TypeDefId :=
  match m.findType? fullName with
  | some id => .ok id
  | none => .error (.unknownType fullName)

def isMethodNamed (m : Metadata) (name : String) (id : MethodDefId) : Bool :=
  match m.methods[id]? with
  | some d => d.name == name
  | none => false

/-- The only method of that name in a type. -/
def findMethod (m : Metadata) (type : TypeDefId) (name : String) : Except Error MethodDefId := do
  let t ← m.typeDef type
  match t.methods.filter (m.isMethodNamed name) with
  | [] => .error (.unknownMethod t.fullName name)
  | [id] => .ok id
  | _ => .error (.ambiguousMethod t.fullName name)

/-- The position of the first field of that name in a type. -/
def findField (m : Metadata) (type : TypeDefId) (name : String) : Except Error Nat := do
  let t ← m.typeDef type
  match t.fields.findIdx? (·.name == name) with
  | some index => .ok index
  | none => .error (.unknownField t.fullName name)

/-! ## Adding -/

def addType (m : Metadata) (nameSpace name : String) (genericParams : Nat)
    (corlib valueType : Bool) : Except Error (Metadata × TypeDefId) :=
  let fullName := qualifiedName nameSpace name
  match m.findType? fullName with
  | some _ => .error (.duplicateType fullName)
  | none =>
    let id := m.types.length
    .ok ({ m with types :=
      m.types ++ [⟨id, nameSpace, name, corlib, valueType, genericParams, [], []⟩] }, id)

/-- The identifier that the next method gets. Signatures that mention the method's own
parameters are built with it. -/
def nextMethodId (m : Metadata) : MethodDefId :=
  m.methods.length

def addMethod (m : Metadata) (type : TypeDefId) (name : String) (sig : MethodSig)
    (attributes : MethodAttributes) (body : Option MethodBody) :
    Except Error (Metadata × MethodDefId) := do
  let _ ← m.typeDef type
  let id := m.nextMethodId
  return ({
    types := m.types.modify type fun t => { t with methods := t.methods ++ [id] }
    methods := m.methods ++ [⟨id, type, name, sig, attributes, body⟩] }, id)

def addField (m : Metadata) (type : TypeDefId) (field : FieldDef) : Except Error Metadata := do
  let _ ← m.typeDef type
  return { m with
    types := m.types.modify type fun t => { t with fields := t.fields ++ [field] } }

theorem addType_of_findType?_some {m : Metadata} {nameSpace name : String} {id : TypeDefId}
    (h : m.findType? (qualifiedName nameSpace name) = some id) (genericParams : Nat)
    (corlib valueType : Bool) :
    m.addType nameSpace name genericParams corlib valueType =
      .error (.duplicateType (qualifiedName nameSpace name)) := by
  simp [addType, h]

end Metadata
end Monomorph
