/-!
# Double precision numbers

Binary floating-point numbers of double precision as exact values: a sign, a mantissa
below `2 ^ 53` and a power of two from `-1074` to `971`. Reading a decimal fraction rounds
to the nearest such number, a half to the even mantissa.
-/
namespace Chipwright.Decimal

inductive Binary64
  | finite (negative : Bool) (mantissa : Nat) (exponent : Int)
  | infinite (negative : Bool)
  | nan
  deriving DecidableEq

/-- The quotient rounded to the nearest whole number, a half to the even one. -/
def roundDiv (num den : Nat) : Nat :=
  let below := num / den
  let twice := 2 * (num % den)
  if twice < den || (twice = den && below % 2 = 0) then below else below + 1

/-- The number of decimal digits. Zero has one. -/
def digitCount (n : Nat) : Nat := (Nat.toDigits 10 n).length

/-- `num / den` scaled by the power `base ^ (-exponent)`, as a fraction again. -/
def scaleDown (base num den : Nat) (exponent : Int) : Nat × Nat :=
  if 0 ≤ exponent then (num, den * Nat.pow base exponent.toNat)
  else (num * Nat.pow base (-exponent).toNat, den)

namespace Binary64

def zero (negative : Bool) : Binary64 := .finite negative 0 0

/-- The least power of two with which a positive fraction has a mantissa below `2 ^ 53`. -/
def exponentFor (num den : Nat) : Int :=
  let guess : Int := num.log2 - den.log2 - 52
  let (n, d) := scaleDown 2 num den guess
  max (if Nat.pow 2 52 * d ≤ n then guess else guess - 1) (-1074)

/-- A rounded mantissa with its power of two, put in normal form. -/
def pack (negative : Bool) (mantissa : Nat) (exponent : Int) : Binary64 :=
  let (m, e) :=
    if mantissa = Nat.pow 2 53 then (Nat.pow 2 52, exponent + 1) else (mantissa, exponent)
  if m = 0 then zero negative
  else if 971 < e then .infinite negative
  else .finite negative m e

/-- The number nearest to a positive fraction. -/
def ofFraction (negative : Bool) (num den : Nat) : Binary64 :=
  let exponent := exponentFor num den
  let (n, d) := scaleDown 2 num den exponent
  pack negative (roundDiv n d) exponent

/-- The number nearest to `digits * 10 ^ exponent`. Sizes that are out of range whatever
the digits are settled without computing the power. -/
def ofDecimal (negative : Bool) (digits : Nat) (exponent : Int) : Binary64 :=
  if digits = 0 then zero negative
  else if 310 < digitCount digits + exponent then .infinite negative
  else if digitCount digits + exponent < -330 then zero negative
  else
    let (num, den) := scaleDown 10 digits 1 (-exponent)
    ofFraction negative num den

def neg : Binary64 → Binary64
  | .finite negative m e => .finite (!negative) m e
  | .infinite negative => .infinite (!negative)
  | .nan => .nan

/-- The whole number that a finite number is, without its sign. -/
def whole? : Binary64 → Option Nat
  | .finite _ m e =>
    let (num, den) := scaleDown 2 m 1 (-e)
    if num % den = 0 then some (num / den) else none
  | _ => none

def isNegative : Binary64 → Bool
  | .finite negative _ _ => negative
  | .infinite negative => negative
  | .nan => false

end Binary64

end Chipwright.Decimal
