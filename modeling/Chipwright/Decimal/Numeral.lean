import Chipwright.Decimal.Binary64
import Chipwright.Text.Digit
import Chipwright.Text.Lines

/-!
# Numerals

Numbers as they are spelt: decimal fractions with an optional exponent, and whole numbers
with an optional sign and grouped digits.
-/
namespace Chipwright.Decimal

/-- A spelt decimal fraction: `whole.fraction` times ten to the exponent. -/
structure Numeral where
  negative : Bool
  whole : List Char
  fraction : List Char
  exponent : Int

namespace Numeral

def value (x : Numeral) : Binary64 :=
  .ofDecimal x.negative (Text.asciiNumber 10 (x.whole ++ x.fraction))
    (x.exponent - x.fraction.length)

def isDigit (c : Char) : Bool := '0' ≤ c && c ≤ '9'

/-- A row of digits with an optional sign, as an exponent. -/
def exponent? (cs : List Char) : Option Int :=
  let (negative, digits) := match cs with
    | '-' :: ds => (true, ds)
    | '+' :: ds => (false, ds)
    | ds => (false, ds)
  if digits.isEmpty || !digits.all isDigit then none
  else
    let n : Int := Text.asciiNumber 10 digits
    some (if negative then -n else n)

/-- Reads the part of a numeral after its sign. -/
def unsigned? (negative : Bool) (cs : List Char) : Option Numeral :=
  let whole := cs.takeWhile isDigit
  let (fraction, rest) := match cs.dropWhile isDigit with
    | '.' :: ds => (ds.takeWhile isDigit, ds.dropWhile isDigit)
    | ds => ([], ds)
  if whole.isEmpty && fraction.isEmpty then none
  else match rest with
    | [] => some ⟨negative, whole, fraction, 0⟩
    | c :: ds =>
      if c = 'e' || c = 'E' then (exponent? ds).map (⟨negative, whole, fraction, ·⟩) else none

end Numeral

/-- Removes underscores, each of which must stand between two digits. -/
def ungroup? : List Char → Option (List Char)
  | [] => some []
  | c :: '_' :: d :: cs =>
    if Numeral.isDigit c && Numeral.isDigit d then (ungroup? (d :: cs)).map (c :: ·) else none
  | c :: cs => if c = '_' then none else (ungroup? cs).map (c :: ·)

/-- Cuts off the blanks around a numeral and its sign, which says whether it is negative. -/
def cutSign (text : String) : Bool × List Char :=
  match Text.trim Text.isNumeralBlank text.toList with
  | '-' :: cs => (true, cs)
  | '+' :: cs => (false, cs)
  | cs => (false, cs)

/-- Reads a decimal number, an infinity or a not-a-number. -/
def Binary64.read? (text : String) : Option Binary64 :=
  let (negative, cs) := cutSign text
  let word := String.ofList (cs.map Char.toLower)
  if word = "inf" || word = "infinity" then some (.infinite negative)
  else if word = "nan" then some .nan
  else do
    let digits ← ungroup? (cs.map Text.toAsciiDigit)
    let numeral ← Numeral.unsigned? negative digits
    return numeral.value

/-- The most digits that a whole number in decimal may be spelt with. -/
def digitLimit : Nat := 4300

/-- Whether a whole number can be written within the limit. -/
def isWritable (n : Int) : Bool := digitCount n.natAbs ≤ digitLimit

/-- Digits of any script, with single underscores between digits. -/
def groupedDigits? : List Char → Option (List Nat)
  | [] => none
  | [c] => (Text.digitValue? c).map ([·])
  | c :: '_' :: cs => do
    let d ← Text.digitValue? c
    let ds ← groupedDigits? cs
    return d :: ds
  | c :: cs => do
    let d ← Text.digitValue? c
    let ds ← groupedDigits? cs
    return d :: ds

/-- Reads a whole number: an optional sign and grouped digits, with blanks around them. -/
def whole? (text : String) : Option Int := do
  let (negative, cs) := cutSign text
  let digits ← groupedDigits? cs
  guard (digits.length ≤ digitLimit)
  let n : Int := Text.ofDigits 10 digits
  return if negative then -n else n

end Chipwright.Decimal
