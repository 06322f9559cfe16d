import Monomorph.Metadata.Definitions
import Monomorph.Snapshot.Basic

/-!
# Monomorph.Snapshot.Build

From declarations to definitions. All types are added first, so that signatures may mention any
of them; then the fields and methods of each type follow in order, and last the requests.

Inside the fields of a type its parameters need no owner, and inside a method the method's own
parameters may be used too. Requests stand outside both.
-/

namespace Monomorph

/-- What encloses a signature. -/
structure Scope where
  type : Option TypeDefId
  method : Option MethodDefId

namespace Scope

def outside : Scope := ⟨none, none⟩

def inType (type : TypeDefId) : Scope := ⟨some type, none⟩

def inMethod (type : TypeDefId) (method : MethodDefId) : Scope := ⟨some type, some method⟩

end Scope

namespace Metadata

def refNamed (m : Metadata) (name : String) : Except Error TypeRef := do
  let id ← m.findType name
  let t ← m.typeDef id
  return t.toRef

def sigNamed (m : Metadata) (name : String) : Except Error Sig := do
  let id ← m.findType name
  let t ← m.typeDef id
  return t.sig

/-- The owner of a type parameter: the type that is named, or else the enclosing one. -/
def paramOwner (m : Metadata) (scope : Scope) (number : Nat) :
    Option String → Except Error TypeRef
  | some name => m.refNamed name
  | none =>
    match scope.type with
    | some id => (m.typeDef id).map TypeDef.toRef
    | none => .error (.typeParamWithoutOwner number)

mutual

def sigOf (m : Metadata) (scope : Scope) : NamedSig → Except Error Sig
  | .primitive p => .ok (.primitive p)
  | .type name => m.sigNamed name
  | .ptr next => (m.sigOf scope next).map .ptr
  | .byRef next => (m.sigOf scope next).map .byRef
  | .pinned next => (m.sigOf scope next).map .pinned
  | .szArray next => (m.sigOf scope next).map .szArray
  | .array element rank sizes lowerBounds =>
    (m.sigOf scope element).map (.array · rank sizes lowerBounds)
  | .modReqd modifier next =>
    match m.refNamed modifier with
    | .error e => .error e
    | .ok ref => (m.sigOf scope next).map (.modReqd ref)
  | .modOpt modifier next =>
    match m.refNamed modifier with
    | .error e => .error e
    | .ok ref => (m.sigOf scope next).map (.modOpt ref)
  | .genericInst generic args =>
    match m.sigNamed generic with
    | .error e => .error e
    | .ok sig => (m.sigsOf scope args).map (.genericInst sig)
  | .typeParam number owner => (m.paramOwner scope number owner).map (.typeParam number)
  | .methodParam number =>
    match scope.method with
    | some id => .ok (.methodParam number id)
    | none => .error (.methodParamOutsideMethod number)
  | .unsupported e => .ok (.unsupported e)

def sigsOf (m : Metadata) (scope : Scope) : List NamedSig → Except Error (List Sig)
  | [] => .ok []
  | d :: rest =>
    match m.sigOf scope d with
    | .error e => .error e
    | .ok s => (m.sigsOf scope rest).map (s :: ·)

end

def sigOf? (m : Metadata) (scope : Scope) : Option NamedSig → Except Error (Option Sig)
  | none => .ok none
  | some d => (m.sigOf scope d).map some

def sigsOf? (m : Metadata) (scope : Scope) :
    Option (List NamedSig) → Except Error (Option (List Sig))
  | none => .ok none
  | some ds => (m.sigsOf scope ds).map some

/-! ## Definitions -/

def handlerOf (m : Metadata) (scope : Scope) (d : HandlerDecl) : Except Error Handler := do
  let catchType ← m.sigOf? scope d.catchType
  return ⟨d.kind, d.tryStart, d.tryEnd, d.handlerStart, d.handlerEnd, d.filterStart, catchType⟩

def bodyOf (m : Metadata) (scope : Scope) (d : BodyDecl) : Except Error MethodBody := do
  let locals ← m.sigsOf scope d.locals
  let handlers ← d.handlers.mapM (m.handlerOf scope)
  return ⟨locals, handlers, d.instructions⟩

def bodyOf? (m : Metadata) (scope : Scope) :
    Option BodyDecl → Except Error (Option MethodBody)
  | none => .ok none
  | some d => (m.bodyOf scope d).map some

/-- The signature of a method; only one with generic parameters carries their flag. -/
def methodSigOf (m : Metadata) (scope : Scope) (d : MethodDecl) : Except Error MethodSig := do
  let ret ← m.sigOf scope d.ret
  let params ← m.sigsOf scope d.params
  let sentinel ← m.sigsOf? scope d.sentinel
  let plain := MethodSig.plain d.callConv ret params
  let sig := if d.genericParams = 0 then plain else plain.withGenericParams d.genericParams
  return { sig with sentinel := sentinel }

def addTypeDecl (m : Metadata) (d : TypeDecl) : Except Error Metadata :=
  (m.addType d.nameSpace d.name d.genericParams d.corlib d.valueType).map Prod.fst

def addFieldDecl (type : TypeDefId) (m : Metadata) (d : FieldDecl) : Except Error Metadata := do
  let sig ← m.sigOf (.inType type) d.type
  m.addField type ⟨d.name, sig, d.isStatic⟩

/-- Adds a method to a type; its own parameters belong to the identifier that it is about to get. -/
def addMethodDecl (type : TypeDefId) (m : Metadata) (d : MethodDecl) :
    Except Error Metadata := do
  let scope := Scope.inMethod type m.nextMethodId
  let sig ← m.methodSigOf scope d
  let body ← m.bodyOf? scope d.body
  let (m, _) ← m.addMethod type d.name sig d.attributes body
  return m

/-- Adds the fields and then the methods of a type; its position comes with its declaration. -/
def addContents (m : Metadata) (d : TypeDecl × TypeDefId) : Except Error Metadata := do
  let m ← d.1.fields.foldlM (addFieldDecl d.2) m
  d.1.methods.foldlM (addMethodDecl d.2) m

end Metadata

/-! ## Requests -/

inductive Target where
  | type
  | method (id : MethodDefId) (args : List Sig)
  | field (index : Nat)
  deriving DecidableEq

structure Request where
  type : TypeDefId
  typeArgs : List Sig
  target : Target
  deriving DecidableEq

structure Loaded where
  metadata : Metadata
  requests : List Request

namespace Metadata

/-- The target of a request for a type; a method that is named comes before a field. -/
def targetOf (m : Metadata) (type : TypeDefId) (d : RequestDecl) : Except Error Target :=
  match d.method, d.field with
  | some name, _ => do
    let id ← m.findMethod type name
    let args ← m.sigsOf .outside d.methodArgs
    return .method id args
  | none, some name => (m.findField type name).map .field
  | none, none => .ok .type

def requestOf (m : Metadata) (d : RequestDecl) : Except Error Request := do
  let type ← m.findType d.type
  let typeArgs ← m.sigsOf .outside d.typeArgs
  let target ← m.targetOf type d
  return ⟨type, typeArgs, target⟩

end Metadata

namespace Snapshot

def metadata (s : Snapshot) : Except Error Metadata := do
  let m ← s.types.foldlM Metadata.addTypeDecl ∅
  s.types.zipIdx.foldlM Metadata.addContents m

def build (s : Snapshot) : Except Error Loaded := do
  let m ← s.metadata
  let requests ← s.requests.mapM m.requestOf
  return ⟨m, requests⟩

end Snapshot
end Monomorph
