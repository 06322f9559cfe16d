import Monomorph.Metadata.Flags
import Monomorph.Signature.Render
import Monomorph.Text.Identifier

/-!
# Monomorph.Key

The keys that identify types, methods and fields. Equal keys mean the same record, so their
layout is fixed to the character.

* type: `Name<Args>`, or `Name` alone without arguments; type parameters show their owners
* method: `Name|Ret<Args>(Params)|CallConv`, where `<Args>` is missing without arguments
* method by its declaration: the same with the number of generic parameters for `Args`
* field: `Name|Type`
-/

namespace Monomorph
namespace Key

def ofType (name : String) (args : List Sig) : Except Error String :=
  match args with
  | [] => .ok (Identifier.escape name)
  | args => (Sig.renderList true args).map fun text =>
    Identifier.escape name ++ "<" ++ text ++ ">"

def ofField (name : String) (type : Sig) : Except Error String :=
  (type.render false).map fun text => Identifier.escape name ++ "|" ++ text

/-- The parameter list and the calling convention, which end a method's key. -/
def signatureTail (params : List Sig) (callConv : CallConv) : Except Error String :=
  (Sig.renderList false params).map fun text => "(" ++ text ++ ")|" ++ callConv.hex

/-- The argument list between the return type and the parameters. -/
def methodArgs (args : List Sig) : Except Error String :=
  match args with
  | [] => .ok ""
  | args => (Sig.renderList false args).map fun text => "<" ++ text ++ ">"

def ofMethod (name : String) (args : List Sig) (ret : Sig) (params : List Sig)
    (callConv : CallConv) : Except Error String := do
  let ret ← ret.render false
  let args ← methodArgs args
  let tail ← signatureTail params callConv
  return Identifier.escape name ++ "|" ++ ret ++ args ++ tail

/-- The key of a method by its declaration, common to all its instances. -/
def ofDeclaration (name : String) (paramCount : Nat) (ret : Sig) (params : List Sig)
    (callConv : CallConv) : Except Error String := do
  let ret ← ret.render false
  let count := if paramCount = 0 then "" else "<" ++ Numeral.decimal paramCount ++ ">"
  let tail ← signatureTail params callConv
  return Identifier.escape name ++ "|" ++ ret ++ count ++ tail

example : ofMethod "<m>" [.primitive .char] (.primitive .void) [.primitive .int32] ⟨0x30⟩ =
    .ok "\\u003Cm\\u003E|Void<Char>(Int32)|30" := rfl

example : ofDeclaration "m" 1 (.primitive .void) [] ⟨0x10⟩ = .ok "m|Void<1>()|10" := rfl

end Key
end Monomorph
