import Chipwright.Decimal.Written

/-!
# Literals

The values that a program can spell out, and how they are written: in a listing of the
program, in an instruction of the chip, and in a message about an operand.
-/
namespace Chipwright

open Decimal (Binary64)

inductive Literal
  | int (n : Int)
  | float (x : Binary64)
  | bool (b : Bool)
  deriving DecidableEq

namespace Literal

/-- Fractions are written plainly from `0.0001` up to sixteen digits before the point. -/
def style : Decimal.Style := ⟨-4, 15, 2⟩

def floatText (x : Binary64) : String := x.write style

/-- A literal as a program spells it. -/
def text : Literal → String
  | .int n => toString n
  | .float x => floatText x
  | .bool b => if b then "true" else "false"

/-- From this size on a whole fraction keeps its point in an instruction. -/
def wholeLimit : Nat := Nat.pow 10 15

/-- A literal as an immediate operand: truth values are 1 and 0, and a whole fraction that
is not too large is written without its point. -/
def immediate : Literal → String
  | .int n => toString n
  | .bool b => if b then "1" else "0"
  | .float x =>
    match x.whole? with
    | some n =>
      if n < wholeLimit then toString (if x.isNegative then -(n : Int) else n) else floatText x
    | none => floatText x

/-- A literal in a message. -/
def description : Literal → String
  | .int n => toString n
  | .float x => floatText x
  | .bool b => if b then "True" else "False"

end Literal

end Chipwright
