import Chipwright.Location
import Chipwright.Text.Digit
import Chipwright.Text.Lines

/-!
# Diagnostics

What can be wrong with a program, and where. A cause says what is wrong; its message, its
hint and the name of its kind are read off it. A report shows where and what, then the line of the
source with a caret under the column, then the hint.
-/
namespace Chipwright

/-- The part of the compiler's work in which a program turns out to be wrong. -/
inductive Family
  | compile
  | reading
  | naming
  | generation
  deriving DecidableEq

def Family.kind : Family → String
  | .compile => "CompileError"
  | .reading => "ParseError"
  | .naming => "ResolutionError"
  | .generation => "CodegenError"

/-- What is wrong with a program. -/
inductive Cause
  /-- A fault in the caller's own words; the subject is a token or a name. -/
  | custom (family : Family) (message : String) (hint subject : Option String)
  | unterminatedComment
  | malformedExponent (token : String)
  | missingDigits (marker : String)
  | trailingName (text : String) (next : Char)
  | integerTooLarge (text : String)
  | loneAmpersand
  | loneBar
  | invalidCharacter (c : Char)
  | unexpectedToken (found : String) (expected : Option String)
  | missingToken (expected found : String)
  | chainedComparison (operator : String)
  | danglingMinus
  | nestingTooDeep
  /-- A definition that only the top level allows. -/
  | misplaced (construct name : String)
  | unresolved (name : String) (similar : List String)
  | immutable (name bindingKind : String)
  | duplicate (name : String) (first : Option Location)
  | wrongKind (name actual expected : String)
  | argumentCount (function : String) (expected actual : Int)
  | recursiveCall (cycle : List String)
  | unknownProperty (name : String) (similar : List String)
  | slotConflict (slot name existing : String)
  | outOfRegisters (construct : String) (registerCount : Int)
  | tooManyLines (construct : String) (lineCount maxLines : Int)
  | missingYield

namespace Cause

def upperHex (width n : Nat) : String :=
  String.ofList ((Text.padded 16 width n).map Char.toUpper)

def quoteAll (names : List String) : String :=
  ", ".intercalate (names.map fun name => s!"'{name}'")

/-- At most three of the names, as a question. -/
def suggestion (names : List String) : Option String :=
  if names.isEmpty then none else some s!"did you mean {quoteAll (names.take 3)}?"

def message : Cause → String
  | custom _ message _ _ => message
  | unterminatedComment => "unterminated multi-line comment"
  | malformedExponent _ => "malformed float exponent"
  | missingDigits marker => s!"expected digits after '{marker}'"
  | trailingName text next => s!"invalid number literal '{text}{next}'"
  | integerTooLarge text => s!"integer literal '{text}' does not fit in 64 bits"
  | loneAmpersand => "unexpected '&'"
  | loneBar => "unexpected '|'"
  | invalidCharacter c => s!"invalid character '{c}' (0x{upperHex 2 c.toNat})"
  | unexpectedToken found _ => s!"unexpected token '{found}'"
  | missingToken expected found => s!"expected '{expected}' before '{found}'"
  | chainedComparison _ => "comparison operators cannot be chained"
  | danglingMinus => "'-' must be followed by a number"
  | nestingTooDeep => "program is nested too deeply"
  | misplaced construct _ => s!"'{construct}' is only allowed at the top level of the program"
  | unresolved name _ => s!"unresolved name '{name}'"
  | immutable name bindingKind => s!"cannot assign to {bindingKind} '{name}'"
  | duplicate name _ => s!"redefinition of '{name}'"
  | wrongKind name actual expected => s!"'{name}' is a {actual}, not a {expected}"
  | argumentCount function expected actual =>
    let word := if expected = 1 then "argument" else "arguments"
    s!"'{function}' expects {expected} {word}, got {actual}"
  | recursiveCall cycle => "recursive call cycle " ++ " -> ".intercalate cycle
  | unknownProperty name _ => s!"unknown device property '{name}'"
  | slotConflict slot _ existing => s!"device slot '{slot}' is already aliased as '{existing}'"
  | outOfRegisters construct count =>
    s!"out of registers while compiling {construct} (all {count} registers are live)"
  | tooManyLines construct count max =>
    s!"program needs {count} lines but the chip holds {max}; the limit is crossed in {construct}"
  | missingYield => "loop body never yields"

def hint : Cause → Option String
  | custom _ _ hint _ => hint
  | unterminatedComment => some "add closing */ to terminate the comment"
  | loneAmpersand => some "logical and is written '&&'"
  | loneBar => some "logical or is written '||'"
  | unexpectedToken _ (some expected) =>
    if expected.isEmpty then none else some s!"expected {expected}"
  | chainedComparison _ => some "combine the comparisons with '&&' or '||'"
  | danglingMinus => some "write '0 - x' to negate a value"
  | nestingTooDeep => some "move deeply nested blocks into functions"
  | misplaced _ name => some s!"move the definition of '{name}' out of the enclosing block"
  | unresolved _ similar => suggestion similar
  | immutable name _ => some s!"declare a variable with 'let {name} = ...;' instead"
  | duplicate name (some first) => some s!"'{name}' was first defined at {first.text}"
  | recursiveCall _ => some "IC10 has no call stack; rewrite the recursion as a loop"
  | unknownProperty _ similar => suggestion similar
  | slotConflict _ name existing => some s!"use '{existing}' instead of defining '{name}'"
  | outOfRegisters _ _ => some "move variables into inner blocks so their registers can be reused"
  | tooManyLines _ _ _ => some "shorten the program or move repeated code into a function"
  | missingYield => some "add 'yield;' so the chip hands control back every tick"
  | _ => none

/-- The token or the name that a fault is about. -/
def subject : Cause → Option String
  | custom _ _ _ subject => subject
  | unterminatedComment => some "/*"
  | malformedExponent token => some token
  | missingDigits marker => some marker
  | trailingName text next => some (text.push next)
  | integerTooLarge text => some text
  | loneAmpersand => some "&"
  | loneBar => some "|"
  | invalidCharacter c => some c.toString
  | unexpectedToken found _ => some found
  | missingToken _ found => some found
  | chainedComparison operator => some operator
  | danglingMinus => some "-"
  | misplaced _ name => some name
  | unresolved name _ => some name
  | immutable name _ => some name
  | duplicate name _ => some name
  | wrongKind name _ _ => some name
  | argumentCount function _ _ => some function
  | recursiveCall cycle => cycle.head?
  | unknownProperty name _ => some name
  | _ => none

/-- The name under which the log files a fault. -/
def kind : Cause → String
  | custom family _ _ _ => family.kind
  | misplaced _ _ => "ScopeError"
  | unresolved _ _ => "UnresolvedNameError"
  | immutable _ _ => "ImmutableBindingError"
  | duplicate _ _ => "DuplicateDefinitionError"
  | wrongKind _ _ _ => "BindingKindError"
  | argumentCount _ _ _ => "ArgumentCountError"
  | recursiveCall _ => "RecursiveCallError"
  | unknownProperty _ _ => "UnknownPropertyError"
  | slotConflict _ _ _ => "DeviceSlotConflictError"
  | outOfRegisters _ _ => "RegisterExhaustionError"
  | tooManyLines _ _ _ => "InstructionBudgetExceededError"
  | missingYield => "MissingYieldError"
  | _ => "ParseError"

end Cause

/-- A fault of a program: its cause, where it is, and the line of the source it is on. -/
structure Diagnostic where
  cause : Cause
  location : Option Location := none
  sourceLine : Option String := none

/-- The source line and a caret under the column, if the column is in the line's range. -/
def excerpt (sourceLine : String) (column : Int) : List String :=
  let shown := "    " ++ sourceLine
  if 0 < column then
    [shown, String.ofList (List.replicate (3 + column.toNat) ' ' ++ ['^'])]
  else [shown]

/-- The text of a report, part by part. -/
def reportText (message : String) (location : Option Location) (hint sourceLine : Option String) :
    String :=
  let headline := match location with
    | some l => s!"{l.text}: error: {message}"
    | none => s!"error: {message}"
  let lines := match sourceLine, location with
    | some line, some l => excerpt line l.column
    | _, _ => []
  let advice := match hint with
    | some h => if h.isEmpty then [] else [s!"hint: {h}"]
    | none => []
  "\n".intercalate (headline :: lines ++ advice)

namespace Diagnostic

def text (d : Diagnostic) : String :=
  reportText d.cause.message d.location d.cause.hint d.sourceLine

/-- The line of a source with the given number, from 1, without the carriage returns at
its end. -/
def sourceLine? (source : List Char) (line : Int) : Option String :=
  if 1 ≤ line then
    (Text.line? (line.toNat - 1) source).map fun cs =>
      String.ofList (cs.reverse.dropWhile (· = '\r')).reverse
  else none

/-- Fills in the line of the source, if it is still missing. -/
def attachSource (source : List Char) (d : Diagnostic) : Diagnostic :=
  match d.sourceLine, d.location with
  | none, some l => { d with sourceLine := sourceLine? source l.line }
  | _, _ => d

end Diagnostic

end Chipwright
