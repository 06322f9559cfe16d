import Monomorph.Text.Numeral

/-!
# Monomorph.Metadata.Flags

The two flag words of a method: its calling convention, one byte, and its attributes, two bytes.
-/

namespace Monomorph

/-- A calling convention: a kind in the low four bits, and flags. -/
structure CallConv where
  bits : UInt8
  deriving DecidableEq

namespace CallConv

def generic : CallConv := ⟨0x10⟩

def receiver : CallConv := ⟨0x20⟩

def join (a b : CallConv) : CallConv := ⟨a.bits ||| b.bits⟩

def hasThis (c : CallConv) : Bool := c.bits &&& receiver.bits != 0

def isGeneric (c : CallConv) : Bool := c.bits &&& generic.bits != 0

/-- Variable-length argument lists are the kind 5. -/
def isVarArg (c : CallConv) : Bool := c.bits &&& 0x0F == 0x05

def hex (c : CallConv) : String := Numeral.hex c.bits.toNat

end CallConv

structure MethodAttributes where
  bits : UInt16
  deriving DecidableEq

namespace MethodAttributes

def join (a b : MethodAttributes) : MethodAttributes := ⟨a.bits ||| b.bits⟩

/-- Static methods belong to the type as a whole. -/
def isStatic (a : MethodAttributes) : Bool := a.bits &&& 0x0010 != 0

def isVirtual (a : MethodAttributes) : Bool := a.bits &&& 0x0040 != 0

def hex (a : MethodAttributes) : String := Numeral.hex a.bits.toNat

end MethodAttributes
end Monomorph
