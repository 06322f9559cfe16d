import Monomorph.Json.Reader
import Monomorph.Snapshot.Basic

/-!
# Monomorph.Snapshot.Reader

The text of a snapshot. Each kind of declaration is a record or a choice; its members, their
order and what stands for a missing one are listed here.
-/

namespace Monomorph
namespace Snapshot
namespace Format

open Json

variable {α : Type}

def required (name : String) (r : Reader α) : Member α :=
  ⟨name, r, none⟩

def withDefault (name : String) (absent : α) (r : Reader α) : Member α :=
  ⟨name, r, some absent⟩

def listMember (name : String) (r : Reader α) : Member (List α) :=
  withDefault name [] (.list r)

/-- A member that may be missing or `null`. -/
def optionalMember (name : String) (r : Reader α) : Member (Option α) :=
  withDefault name none (.optional r)

def flagMember (name : String) : Member Bool :=
  withDefault name false .bool

/-! ## Signatures -/

def arrayMembers (inner : Reader NamedSig) :
    Members [NamedSig, Nat, List Nat, List Int] :=
  .cons (required "element" inner) <|
  .cons (required "rank" (.unsigned 32)) <|
  .cons (listMember "sizes" (.unsigned 32)) <|
  .cons (listMember "lower_bounds" (.signed 32)) .nil

def modifierMembers (inner : Reader NamedSig) : Members [String, NamedSig] :=
  .cons (required "modifier" .string) <|
  .cons (required "next" inner) .nil

def genericMembers (inner : Reader NamedSig) : Members [String, List NamedSig] :=
  .cons (required "generic_type" .string) <|
  .cons (required "args" (.list inner)) .nil

def typeParamMembers : Members [Nat, Option String] :=
  .cons (required "number" (.unsigned 32)) <|
  .cons (optionalMember "owner" .string) .nil

/-- The variants of a signature, over a reader for the signatures inside. -/
def sigVariant? (inner : Reader NamedSig) (name : String) : Option (Reader.Variant NamedSig) :=
  match name with
  | "primitive" => some <| .holding do
    return .primitive (← .named Primitive.ofName?)
  | "type" => some <| .holding do return .type (← .string)
  | "ptr" => some <| .holding do return .ptr (← inner)
  | "by_ref" => some <| .holding do return .byRef (← inner)
  | "pinned" => some <| .holding do return .pinned (← inner)
  | "sz_array" => some <| .holding do return .szArray (← inner)
  | "array" => some <| .holding do
    let (element, rank, sizes, lowerBounds, _) ← Reader.record (arrayMembers inner)
    return .array element rank sizes lowerBounds
  | "mod_reqd" => some <| .holding do
    let (modifier, next, _) ← Reader.record (modifierMembers inner)
    return .modReqd modifier next
  | "mod_opt" => some <| .holding do
    let (modifier, next, _) ← Reader.record (modifierMembers inner)
    return .modOpt modifier next
  | "generic_inst" => some <| .holding do
    let (generic, args, _) ← Reader.record (genericMembers inner)
    return .genericInst generic args
  | "var" => some <| .holding do
    let (number, owner, _) ← Reader.record typeParamMembers
    return .typeParam number owner
  | "mvar" => some <| .holding do return .methodParam (← .unsigned 32)
  | "unsupported" => some <| .holding do
    return .unsupported (← .named ElementType.ofName?)
  | _ => none

/-- Reads a signature with fewer than the given number of signatures inside one another. -/
def sigWithin : Nat → Reader NamedSig
  | 0 => .fail
  | n + 1 => fun limits cs => Reader.choice (sigVariant? (sigWithin n)) limits cs

/-- Reads a signature. Every signature with another one inside opens a bracket, so the brackets
that may be opened bound the depth. -/
def sig : Reader NamedSig := fun limits cs =>
  sigWithin (limits.depth + 1) limits cs

/-! ## Definitions -/

def fieldMembers : Members [String, NamedSig, Bool] :=
  .cons (required "name" .string) <|
  .cons (required "type" sig) <|
  .cons (flagMember "is_static") .nil

def field : Reader FieldDecl := do
  let (name, type, isStatic, _) ← Reader.record fieldMembers
  return ⟨name, type, isStatic⟩

def handlerMembers : Members [HandlerKind, Nat, Nat, Nat, Nat, Option Nat, Option NamedSig] :=
  .cons (required "kind" (.named HandlerKind.ofName?)) <|
  .cons (required "try_start" (.unsigned 32)) <|
  .cons (required "try_end" (.unsigned 32)) <|
  .cons (required "handler_start" (.unsigned 32)) <|
  .cons (required "handler_end" (.unsigned 32)) <|
  .cons (optionalMember "filter_start" (.unsigned 32)) <|
  .cons (optionalMember "catch_type" sig) .nil

def handler : Reader HandlerDecl := do
  let (kind, tryStart, tryEnd, handlerStart, handlerEnd, filterStart, catchType, _) ←
    Reader.record handlerMembers
  return ⟨kind, tryStart, tryEnd, handlerStart, handlerEnd, filterStart, catchType⟩

def operandVariant? (name : String) : Option (Reader.Variant Operand) :=
  match name with
  | "none" => some (.bare .none)
  | "int" => some <| .holding do return .int (← .signed 64)
  | "float" => some <| .holding do return .float (← .double)
  | "string" => some <| .holding do return .string (← .string)
  | "branch" => some <| .holding do return .branch (← .unsigned 32)
  | "switch" => some <| .holding do return .switch (← .list (.unsigned 32))
  | "token" => some <| .holding do return .token (← .string)
  | _ => none

def instructionMembers : Members [Nat, String, Operand] :=
  .cons (required "offset" (.unsigned 32)) <|
  .cons (required "opcode" .string) <|
  .cons (withDefault "operand" .none (.choice operandVariant?)) .nil

def instruction : Reader Instruction := do
  let (offset, opcode, operand, _) ← Reader.record instructionMembers
  return ⟨offset, opcode, operand⟩

def bodyMembers : Members [List NamedSig, List HandlerDecl, List Instruction] :=
  .cons (listMember "locals" sig) <|
  .cons (listMember "handlers" handler) <|
  .cons (listMember "instructions" instruction) .nil

def body : Reader BodyDecl := do
  let (locals, handlers, instructions, _) ← Reader.record bodyMembers
  return ⟨locals, handlers, instructions⟩

def methodMembers :
    Members [String, Nat, Nat, Nat, NamedSig, List NamedSig, Option (List NamedSig),
      Option BodyDecl] :=
  .cons (required "name" .string) <|
  .cons (withDefault "calling_convention" 0 (.unsigned 8)) <|
  .cons (withDefault "attributes" 0 (.unsigned 16)) <|
  .cons (withDefault "generic_params" 0 (.unsigned 32)) <|
  .cons (required "ret" sig) <|
  .cons (listMember "params" sig) <|
  .cons (optionalMember "params_after_sentinel" (.list sig)) <|
  .cons (optionalMember "body" body) .nil

def method : Reader MethodDecl := do
  let (name, callConv, attributes, genericParams, ret, params, sentinel, body, _) ←
    Reader.record methodMembers
  return ⟨name, ⟨callConv.toUInt8⟩, ⟨attributes.toUInt16⟩, genericParams, ret, params, sentinel,
    body⟩

def typeMembers :
    Members [String, String, Bool, Bool, Nat, List FieldDecl, List MethodDecl] :=
  .cons (withDefault "namespace" "" .string) <|
  .cons (required "name" .string) <|
  .cons (flagMember "corlib") <|
  .cons (flagMember "value_type") <|
  .cons (withDefault "generic_params" 0 (.unsigned 32)) <|
  .cons (listMember "fields" field) <|
  .cons (listMember "methods" method) .nil

def type : Reader TypeDecl := do
  let (nameSpace, name, corlib, valueType, genericParams, fields, methods, _) ←
    Reader.record typeMembers
  return ⟨nameSpace, name, corlib, valueType, genericParams, fields, methods⟩

/-! ## Requests -/

def requestMembers :
    Members [String, List NamedSig, Option String, List NamedSig, Option String] :=
  .cons (required "type" .string) <|
  .cons (listMember "type_args" sig) <|
  .cons (optionalMember "method" .string) <|
  .cons (listMember "method_args" sig) <|
  .cons (optionalMember "field" .string) .nil

def request : Reader RequestDecl := do
  let (type, typeArgs, method, methodArgs, field, _) ← Reader.record requestMembers
  return ⟨type, typeArgs, method, methodArgs, field⟩

def snapshotMembers : Members [List TypeDecl, List RequestDecl] :=
  .cons (listMember "types" type) <|
  .cons (listMember "instantiations" request) .nil

def snapshot : Reader Snapshot := do
  let (types, requests, _) ← Reader.record snapshotMembers
  return ⟨types, requests⟩

end Format

def parse (text : String) : Except Error Snapshot :=
  match Format.snapshot.run text with
  | .ok s => .ok s
  | .error line => .error (.malformed line)

end Snapshot
end Monomorph
