import Chipwright.Decimal.Binary64
import Chipwright.Text.Digit

/-!
# Written decimals

A double precision number is written as the decimal with the fewest digits that reads back as it
and, of those, the one nearest to it. A style says for which sizes the digits stand around a plain
point and how an exponent is written.
-/
namespace Chipwright.Decimal

/-- The value `digits * 10 ^ exponent`. -/
structure Scientific where
  digits : Nat
  exponent : Int

namespace Scientific

/-- The power of ten of the leading digit of a positive fraction. -/
def magnitude (num den : Nat) : Int :=
  if den ≤ num then digitCount (num / den) - 1 else -digitCount ((den - 1) / num)

/-- The two neighbours of a positive fraction among the decimals of the given number of
digits, the nearer first, and in a tie the even one first. -/
def neighbours (num den places : Nat) : List Scientific :=
  let exponent := magnitude num den + 1 - places
  let (n, d) := scaleDown 10 num den exponent
  let below := n / d
  if roundDiv n d = below then [⟨below, exponent⟩, ⟨below + 1, exponent⟩]
  else [⟨below + 1, exponent⟩, ⟨below, exponent⟩]

/-- Whether the decimal reads as `mantissa * 2 ^ exponent`. -/
def readsAs (x : Scientific) (mantissa : Nat) (exponent : Int) : Bool :=
  Binary64.ofDecimal false x.digits x.exponent = .finite false mantissa exponent

/-- The shortest decimal that reads as `mantissa * 2 ^ exponent`. Seventeen digits always
suffice. -/
def shortest (mantissa : Nat) (exponent : Int) : Scientific :=
  let (num, den) := scaleDown 2 mantissa 1 (-exponent)
  let found := (List.range 17).findSome? fun n =>
    (neighbours num den (n + 1)).find? (·.readsAs mantissa exponent)
  found.getD ⟨roundDiv num den, 0⟩

end Scientific

structure Style where
  /-- The least power of ten of a leading digit that is written without an exponent. -/
  leastPlain : Int
  /-- The greatest one. -/
  greatestPlain : Int
  /-- The least number of digits of an exponent. -/
  exponentDigits : Nat

/-- The significant digits and the power of ten of the first of them. -/
def significant (x : Scientific) : List Char × Int :=
  let digits := Nat.toDigits 10 x.digits
  ((digits.reverse.dropWhile (· = '0')).reverse, x.exponent + digits.length - 1)

/-- Digits around a point, with at least one on each side. -/
def plain (digits : List Char) (power : Int) : List Char :=
  if power < 0 then
    '0' :: '.' :: (List.replicate ((-power).toNat - 1) '0' ++ digits)
  else
    let size := power.toNat + 1
    let whole := digits.take size ++ List.replicate (size - digits.length) '0'
    let fraction := digits.drop size
    whole ++ '.' :: (if fraction.isEmpty then ['0'] else fraction)

/-- One digit before the point, and a signed exponent. -/
def withExponent (style : Style) (digits : List Char) (power : Int) : List Char :=
  let fraction := digits.drop 1
  digits.take 1 ++ (if fraction.isEmpty then [] else '.' :: fraction) ++
    'e' :: (if power < 0 then '-' else '+') :: Text.padded 10 style.exponentDigits power.natAbs

def Scientific.write (style : Style) (x : Scientific) : List Char :=
  let (digits, power) := significant x
  if style.leastPlain ≤ power && power ≤ style.greatestPlain then plain digits power
  else withExponent style digits power

def signed (negative : Bool) (text : List Char) : String :=
  String.ofList (if negative then '-' :: text else text)

def Binary64.write (style : Style) : Binary64 → String
  | .nan => "nan"
  | .infinite negative => signed negative "inf".toList
  | .finite negative m e =>
    signed negative (if m = 0 then "0.0".toList else (Scientific.shortest m e).write style)

end Chipwright.Decimal
