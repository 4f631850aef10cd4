import Chipwright.Failure
import Chipwright.Options
import Chipwright.Text.ControlSequence

/-!
# What the command prints

Messages are shown without control sequences, so that a file's name or content cannot drive
the terminal. The log is shown as it is. An exit code tells of what went wrong.
-/
namespace Chipwright.Command

/-- Lines for the output and for the error stream. -/
structure Printed where
  stdout : List String := []
  stderr : List String := []

namespace Printed

/-- A message as it is shown. -/
def shown (message : String) : String := String.ofList (Text.plain message.toList)

def out (messages : List String) : Printed := { stdout := messages.map shown }

def err (messages : List String) : Printed := { stderr := messages.map shown }

/-- Messages for the error stream or else for the output. -/
def stream (stderr : Bool) (messages : List String) : Printed :=
  if stderr then err messages else out messages

def log (records : List LogRecord) : Printed := { stderr := records.map (·.text) }

instance : Append Printed := ⟨fun a b => ⟨a.stdout ++ b.stdout, a.stderr ++ b.stderr⟩⟩

/-- The text of lines, each with a newline. -/
def text (lines : List String) : String := String.join (lines.map (· ++ "\n"))

end Printed

inductive ExitCode
  | success
  | buildError
  | invalidArguments
  | internalError
  deriving DecidableEq

namespace ExitCode

def code : ExitCode → Nat
  | success => 0
  | buildError => 1
  | invalidArguments => 2
  | internalError => 3

def name : ExitCode → String
  | success => "SUCCESS"
  | buildError => "BUILD_ERROR"
  | invalidArguments => "INVALID_ARGS"
  | internalError => "INTERNAL_ERROR"

end ExitCode

/-- Why the command ends early. -/
inductive Trouble
  /-- The program is wrong; the report says how. -/
  | build (report : String)
  /-- A file cannot be used, or an argument makes no sense. -/
  | arguments (message : String)
  | internal (message : String)

namespace Trouble

def exit : Trouble → ExitCode
  | build _ => .buildError
  | arguments _ => .invalidArguments
  | internal _ => .internalError

/-- What goes to the error stream. If asked for, an internal error is followed by a trace,
which is empty. -/
def messages (verbose : Bool) : Trouble → List String
  | build report => [report]
  | arguments message => [s!"Error: {message}"]
  | internal message =>
    s!"Internal error: {message}" :: if verbose then ["NoneType: None"] else []

def printed (verbose : Bool) (t : Trouble) : Printed := .err (t.messages verbose)

def ofFileError (e : FileError) : Trouble :=
  match e with
  | .noSource _ | .missing _ | .isDirectory _ => .arguments e.message
  | .notDirectory _ | .nameTooLong _ | .nullCharacter | .undecodable _ => .internal e.message

def ofFailure (e : Failure) : Trouble :=
  match e with
  | .diagnostic d => .build d.text
  | .file e => ofFileError e
  | _ => .internal e.message

end Trouble

end Chipwright.Command
