/-!
# Monomorph.Json.Number

The parts of a JSON number and the two values it can have: an integer, if it is written as one,
and the double that stands for it.

The double is found in one multiplication or division. Digits make up a significand for as long
as it fits 64 bits; later digits of the whole part count only by their place, and later digits
of the fraction not at all. The significand, as a double, is then scaled by a power of ten.
-/

namespace Monomorph
namespace Json

/-- The parts of a number; a part that is not written is missing. -/
structure Number where
  negative : Bool
  whole : List Nat
  fraction : Option (List Nat)
  exponent : Option Int

namespace Number

def ofDigits (digits : List Nat) : Nat :=
  digits.foldl (fun n d => 10 * n + d) 0

/-- The value of a number written without fraction and exponent; `-0` is no integer. -/
def integer? (x : Number) : Option Int :=
  match x.fraction, x.exponent with
  | none, none =>
    if x.negative then
      if ofDigits x.whole = 0 then none else some (-(ofDigits x.whole : Int))
    else some (ofDigits x.whole)
  | _, _ => none

/-- Appends digits to a significand while it stays below 2^64; also the digits left over. -/
def appendDigits (significand : Nat) : List Nat → Nat × List Nat
  | [] => (significand, [])
  | d :: rest =>
    if significand * 10 + d < 2 ^ 64 then appendDigits (significand * 10 + d) rest
    else (significand, d :: rest)

def parts (x : Number) : Nat × Int :=
  let fraction := x.fraction.getD []
  let (significand, unread) := appendDigits 0 x.whole
  let (significand, unreadFraction) := appendDigits significand fraction
  let places : Int := unread.length - (fraction.length - unreadFraction.length)
  (significand, places + x.exponent.getD 0)

def powerOfTen (n : Nat) : Float :=
  Float.ofScientific 1 false n

/-- Divides by a power of ten of any size, in steps of 308. -/
def scaleDown (f : Float) (n : Nat) : Float :=
  if n ≤ 308 then f / powerOfTen n
  else if f == 0 then f
  else scaleDown (f / powerOfTen 308) (n - 308)
termination_by n

def scale (f : Float) : Int → Option Float
  | .ofNat n =>
    if n ≤ 308 then
      let product := f * powerOfTen n
      if product.isInf then none else some product
    else if f == 0 then some f else none
  | .negSucc n => some (scaleDown f (n + 1))

/-- The bits of the double that stands for a number; nothing, if the number is too large. -/
def bits? (x : Number) : Option UInt64 :=
  let (significand, exponent) := x.parts
  (scale significand.toUInt64.toFloat exponent).map fun f =>
    if x.negative then (-f).toBits else f.toBits

end Number
end Json
end Monomorph
