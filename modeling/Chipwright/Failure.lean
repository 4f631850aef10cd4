import Chipwright.Chip.Section
import Chipwright.Diagnostic
import Chipwright.Files.Error
import Chipwright.Program.Operator
import Chipwright.Token.Lexer

/-!
# Failures

All that can stop a compilation: most often a fault of the program, now and then a limit
or a misuse that has no place in the program's text.
-/
namespace Chipwright

inductive Failure
  | diagnostic (d : Diagnostic)
  /-- A whole number is spelt with more decimal digits than are read. -/
  | tooManyDigits (count : Nat)
  /-- A whole number is to be written that has too many decimal digits. -/
  | unwritable
  /-- The stack of the compiler is full. -/
  | tooDeep
  /-- There is no such number of general registers. -/
  | registerCount (count : Int)
  | notAllocated (r : Register)
  | outermostFrame
  /-- A variable is used that no register has been given to. -/
  | homeless (name : String)
  | unknownFunction (name : String)
  | indexOutOfRange
  | chip (fault : ChipFault)
  | link (e : LinkError)
  | file (e : FileError)

namespace Failure

/-- What is said of a number that cannot be written. -/
def unwritableMessage : String :=
  s!"Exceeds the limit ({Decimal.digitLimit} digits) for integer string conversion; " ++
    "use sys.set_int_max_str_digits() to increase the limit"

def message : Failure → String
  | diagnostic d => d.text
  | tooManyDigits count =>
    s!"Exceeds the limit ({Decimal.digitLimit} digits) for integer string conversion: " ++
      s!"value has {count} digits; use sys.set_int_max_str_digits() to increase the limit"
  | unwritable => unwritableMessage
  | tooDeep => "maximum recursion depth exceeded"
  | registerCount count =>
    if Decimal.isWritable count then
      s!"register count must be between 1 and {Register.generalCount}, got {count}"
    else unwritableMessage
  | notAllocated r => s!"{r.name} is not allocated in the current frame"
  | outermostFrame => "cannot pop the outermost register frame"
  | homeless name => s!"no register holds '{name}'"
  | unknownFunction name => s!"no function '{name}'"
  | indexOutOfRange => "list index out of range"
  | chip fault => fault.message
  | link e => e.message
  | file e => e.message

/-- A program that is too deep for the compiler is at fault itself. -/
def atFault : Failure → Failure
  | tooDeep => .diagnostic { cause := .nestingTooDeep }
  | e => e

/-- A fault of the program at a place of its text. -/
def located (file : String) (pos : Position) (cause : Cause) : Failure :=
  .diagnostic { cause, location := some (pos.inFile file) }

end Failure

/-- The failure that a text which is no token sequence gives. It shows the line as it
stands in the text; only an open comment shows none. -/
def Lexer.Error.failure (file : String) (source : List Char) (e : Lexer.Error) : Failure :=
  match e.fault with
  | .tooManyDigits count => .tooManyDigits count
  | .cause .unterminatedComment => .located file e.pos .unterminatedComment
  | .cause cause =>
    .diagnostic {
      cause
      location := some (e.pos.inFile file)
      sourceLine := (Text.line? (e.pos.line - 1) source).map String.ofList }

/-- The failure that tokens which are no program give. It shows the line of a listing that
has the number of the token's line; only a program that is nested too deeply shows none. -/
def ParseFault.failure (file : String) (source : List Char) (finish : Position)
    (f : ParseFault) : Failure :=
  let pos := f.pos.getD finish
  match f.cause with
  | .nestingTooDeep => .located file pos .nestingTooDeep
  | cause =>
    .diagnostic {
      cause
      location := some (pos.inFile file)
      sourceLine := (Text.listedLine? (pos.line - 1) source).map String.ofList }

end Chipwright
