import Monomorph.Instance.Field
import Monomorph.Instance.Method
import Monomorph.Metadata.Definitions
import Monomorph.Registry

/-!
# Monomorph.Catalog

The catalog of published instances. A type goes by its key, and a method or a field by the number
of its owner and its key: a request whose key is there already answers the number of the record
under it, and any other request that succeeds adds one record at the end. A request that fails
leaves no new catalog, so nothing of it stays behind.
-/

namespace Monomorph

abbrev TypeInstanceId := Nat

abbrev FieldInstanceId := Nat

structure Catalog where
  types : Registry String TypeInstance
  methods : Registry (TypeInstanceId × String) MethodInstance
  fields : Registry (TypeInstanceId × String) FieldInstance

namespace Catalog

def empty : Catalog :=
  ⟨∅, ∅, ∅⟩

instance : EmptyCollection Catalog := ⟨empty⟩

/-! ## Looking up -/

def typeInstance (c : Catalog) (id : TypeInstanceId) : Except Error TypeInstance :=
  match c.types.get? id with
  | some i => .ok i
  | none => .error .outsideTable

def methodInstance (c : Catalog) (id : MethodInstanceId) : Except Error MethodInstance :=
  match c.methods.get? id with
  | some i => .ok i
  | none => .error .outsideTable

def fieldInstance (c : Catalog) (id : FieldInstanceId) : Except Error FieldInstance :=
  match c.fields.get? id with
  | some i => .ok i
  | none => .error .outsideTable

/-! ## Publishing -/

/-- The catalog with a type record under its key, and the number of the record there. -/
def publishType (c : Catalog) (key : String) (i : TypeInstance) : Catalog × TypeInstanceId :=
  match c.types.find? key with
  | some id => (c, id)
  | none => ({ c with types := c.types.push key i }, c.types.size)

def publishField (c : Catalog) (owner : TypeInstanceId) (i : FieldInstance) :
    Catalog × FieldInstanceId :=
  match c.fields.find? (owner, i.key) with
  | some id => (c, id)
  | none => ({ c with fields := c.fields.push (owner, i.key) i }, c.fields.size)

/-- The catalog with a method record under its key, and the number of the record there. A record
is new only if its declared key can be written too. -/
def publishMethod (c : Catalog) (owner : TypeInstanceId) (key : String) (i : MethodInstance) :
    Except Error (Catalog × MethodInstanceId) :=
  match c.methods.find? (owner, key) with
  | some id => .ok (c, id)
  | none => i.declaredKey.map fun _ =>
    ({ c with methods := c.methods.push (owner, key) i }, c.methods.size)

/-! ## Resolving requests -/

/-- Resolves a type with arguments; there is no answer while an argument mentions a generic
parameter of a type. -/
def resolveType (c : Catalog) (m : Metadata) (type : TypeDefId) (args : List Sig) :
    Except Error (Catalog × Option TypeInstanceId) := do
  let d ← m.typeDef type
  let i ← TypeInstance.make d args
  if ← i.isConcrete then
    let key ← i.key
    let (c, id) := c.publishType key i
    return (c, some id)
  else
    return (c, none)

/-- Resolves a method of a published type with arguments; there is no answer while an argument
mentions a generic parameter. -/
def resolveMethod (c : Catalog) (m : Metadata) (owner : TypeInstanceId) (method : MethodDefId)
    (args : List Sig) : Except Error (Catalog × Option MethodInstanceId) := do
  let type ← c.typeInstance owner
  let d ← m.methodDef method
  if Sig.anyHasParam args then
    return (c, none)
  else
    let i ← MethodInstance.make type d args
    let i ← i.concretize
    let key ← i.concretizedKey
    let (c, id) ← c.publishMethod owner key i
    return (c, some id)

def resolveField (c : Catalog) (m : Metadata) (owner : TypeInstanceId) (index : Nat) :
    Except Error (Catalog × FieldInstanceId) := do
  let type ← c.typeInstance owner
  let d ← m.typeDef type.type.id
  match d.fields[index]? with
  | none => .error (.unknownField d.fullName ("#" ++ Numeral.decimal index))
  | some field =>
    let i ← FieldInstance.make type field
    return c.publishField owner i

/-! ## State kept for the methods -/

def modifyMethod (c : Catalog) (id : MethodInstanceId) (f : MethodInstance → MethodInstance) :
    Catalog :=
  { c with methods := c.methods.modify id f }

/-- Adds an override to a method; also whether it is new. -/
def addOverride (c : Catalog) (id target : MethodInstanceId) : Except Error (Catalog × Bool) := do
  let i ← c.methodInstance id
  let (i, added) := i.addOverride target
  return (c.modifyMethod id fun _ => i, added)

def setProcessed (c : Catalog) (id : MethodInstanceId) (value : Bool) : Except Error Catalog := do
  let _ ← c.methodInstance id
  return c.modifyMethod id ({ · with processed := value })

def setSkipped (c : Catalog) (id : MethodInstanceId) (value : Bool) : Except Error Catalog := do
  let _ ← c.methodInstance id
  return c.modifyMethod id ({ · with skipped := value })

def isPending (c : Catalog) (id : MethodInstanceId) : Bool :=
  match c.methods.get? id with
  | some i => !i.processed && !i.skipped
  | none => false

def pending (c : Catalog) : List MethodInstanceId :=
  (List.range c.methods.size).filter c.isPending

end Catalog
end Monomorph
