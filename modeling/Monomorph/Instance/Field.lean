import Monomorph.Instance.Type

/-!
# Monomorph.Instance.Field

A field of a type instance, with its type after substitution and its key.
-/

namespace Monomorph

structure FieldInstance where
  owner : TypeInstance
  name : String
  type : Sig
  isStatic : Bool
  key : String
  deriving DecidableEq

/-- The field under the arguments of its owner. -/
def FieldInstance.make (owner : TypeInstance) (d : FieldDef) : Except Error FieldInstance := do
  let type ← d.type.substitute owner.binding
  let key ← Key.ofField d.name type
  return ⟨owner, d.name, type, d.isStatic, key⟩

end Monomorph
