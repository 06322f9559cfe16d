import Monomorph.Catalog
import Monomorph.Json.Document
import Monomorph.Snapshot.Build
import Monomorph.Text.Quotation

/-!
# Monomorph.Report

Resolving all requests of a snapshot, and the report of the keys that come of it.

The requests are resolved in order in one catalog that is empty at first, and the first failure
ends the run. A request whose arguments are still open is skipped. The report lists the keys of
the types, of the methods that wait to be processed, and of the fields, in the order of their
numbers, and marks the methods as processed.
-/

namespace Monomorph

inductive Failure where
  | unreadable (path : String)
  | malformed
  | method (type : String) (cause : Error)
  | field (type : String) (cause : Error)
  /-- Anything else that goes wrong. -/
  | library (cause : Error)
  deriving DecidableEq

def Failure.message : Failure → String
  | unreadable path => "Failed to read snapshot file: " ++ Quotation.quote path
  | malformed => "Parsing snapshot failed"
  | method type _ => "Failed to resolve a method of " ++ type
  | field type _ => "Failed to resolve a field of " ++ type
  | library cause => cause.message

/-! ## Resolving -/

/-- The instances published so far, and the names of the requests that were skipped. -/
structure Progress where
  catalog : Catalog
  skipped : List String

namespace Progress

def start : Progress :=
  ⟨∅, []⟩

def skip (p : Progress) (name : String) : Progress :=
  { p with skipped := p.skipped ++ [name] }

def resolveTarget (m : Metadata) (p : Progress) (typeName : String) (owner : TypeInstanceId) :
    Target → Except Failure Progress
  | .type => .ok p
  | .method id args =>
    match p.catalog.resolveMethod m owner id args with
    | .error e => .error (.method typeName e)
    | .ok (catalog, some _) => .ok { p with catalog := catalog }
    | .ok (_, none) =>
      match m.methodDef id with
      | .error e => .error (.library e)
      | .ok d => .ok (p.skip (typeName ++ "::" ++ d.name))
  | .field index =>
    match p.catalog.resolveField m owner index with
    | .error e => .error (.field typeName e)
    | .ok (catalog, _) => .ok { p with catalog := catalog }

def resolve (m : Metadata) (p : Progress) (r : Request) : Except Failure Progress :=
  match m.typeDef r.type with
  | .error e => .error (.library e)
  | .ok d =>
    match p.catalog.resolveType m r.type r.typeArgs with
    | .error e => .error (.library e)
    | .ok (_, none) => .ok (p.skip d.fullName)
    | .ok (catalog, some owner) =>
      { p with catalog := catalog }.resolveTarget m d.fullName owner r.target

end Progress

def Loaded.resolveAll (l : Loaded) : Except Failure Progress :=
  l.requests.foldlM (Progress.resolve l.metadata) .start

/-! ## Reporting -/

structure MethodReport where
  owner : String
  signatureKey : String
  declaredKey : String
  concretizedKey : String
  deriving DecidableEq

structure FieldReport where
  owner : String
  key : String
  deriving DecidableEq

structure KeyReport where
  types : List String
  methods : List MethodReport
  fields : List FieldReport
  skipped : List String
  deriving DecidableEq

def MethodInstance.report (m : Metadata) (i : MethodInstance) : Except Error MethodReport := do
  let owner ← i.owner.key
  let d ← m.methodDef i.definition.id
  let signatureKey ← d.signatureKey
  let declaredKey ← i.declaredKey
  let concretizedKey ← i.concretizedKey
  return ⟨owner, signatureKey, declaredKey, concretizedKey⟩

def FieldInstance.report (i : FieldInstance) : Except Error FieldReport := do
  let owner ← i.owner.key
  return ⟨owner, i.key⟩

/-- Reports a method and marks it as processed. -/
def Catalog.reportMethod (m : Metadata) (c : Catalog) (id : MethodInstanceId) :
    Except Error (MethodReport × Catalog) := do
  let i ← c.methodInstance id
  let report ← i.report m
  let c ← c.setProcessed id true
  return (report, c)

def Catalog.reportMethods (m : Metadata) (c : Catalog) :
    List MethodInstanceId → Except Error (List MethodReport × Catalog)
  | [] => .ok ([], c)
  | id :: rest => do
    let (report, c) ← c.reportMethod m id
    let (reports, c) ← c.reportMethods m rest
    return (report :: reports, c)

/-- The report of a run, and the catalog with its methods marked. -/
def Progress.report (m : Metadata) (p : Progress) : Except Error (KeyReport × Catalog) := do
  let types ← p.catalog.types.values.mapM TypeInstance.key
  let (methods, catalog) ← p.catalog.reportMethods m p.catalog.pending
  let fields ← catalog.fields.values.mapM FieldInstance.report
  return (⟨types, methods, fields, p.skipped⟩, catalog)

/-! ## Writing -/

namespace KeyReport

def typeLines (r : KeyReport) : List String :=
  r.types.map ("  " ++ ·)

/-- Four lines for each method: its owner and its three keys. -/
def methodLines (r : KeyReport) : List String :=
  r.methods.flatMap fun m =>
    ["  " ++ m.owner ++ " ->",
      "    signature:   " ++ m.signatureKey,
      "    declared:    " ++ m.declaredKey,
      "    concretized: " ++ m.concretizedKey]

/-- The fields have a heading only if there are any. -/
def fieldLines (r : KeyReport) : List String :=
  match r.fields with
  | [] => []
  | fields => "=== Fields ===" :: fields.map fun f => "  " ++ f.owner ++ " -> " ++ f.key

def warningLines (r : KeyReport) : List String :=
  r.skipped.map fun name => "warning: " ++ name ++ " has open generic arguments, skipped"

def lines (r : KeyReport) : List String :=
  "=== Types ===" :: r.typeLines ++ "=== Methods ===" :: r.methodLines ++ r.fieldLines ++
    r.warningLines

def toText (r : KeyReport) : String :=
  String.join (r.lines.map (· ++ "\n"))

def toDocument (r : KeyReport) : Json.Document :=
  .object [
    ("types", .list (r.types.map .string)),
    ("methods", .list (r.methods.map fun m => .object [
      ("owner", .string m.owner),
      ("signature_key", .string m.signatureKey),
      ("declared_key", .string m.declaredKey),
      ("concretized_key", .string m.concretizedKey)])),
    ("fields", .list (r.fields.map fun f => .object [
      ("owner", .string f.owner),
      ("key", .string f.key)])),
    ("skipped", .list (r.skipped.map .string))]

def toJson (r : KeyReport) : String :=
  r.toDocument.toText ++ "\n"

end KeyReport
end Monomorph
