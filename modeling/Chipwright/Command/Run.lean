import Chipwright.Command.Arguments
import Chipwright.Command.Printed
import Chipwright.Compile
import Chipwright.Options.Environment
import Chipwright.Program.Printer

/-!
# The command

Compiles one file. The text for the chip goes to a file or to the output; warnings, errors
and, if asked for, the log go to the error stream.
-/
namespace Chipwright.Command

def programName : String := "aysc"

def version : String := "0.1.0"

/-- What a run of the command leaves behind. -/
structure Outcome where
  exit : ExitCode
  printed : Printed
  files : FileTree

namespace Invocation

def has (f : Flag) (i : Invocation) : Bool := i.flags.contains f

def inputPath (i : Invocation) : Path := Path.ofText i.input

/-- The given output file, or the one next to the input. -/
def outputPath (i : Invocation) : Path :=
  match i.output with
  | some text => Path.ofText text
  | none => i.inputPath.withEnding ".ic10"

/-- Options on the command line win over those of the environment. -/
def options (base : Options) (i : Invocation) : Options where
  maxLines := i.maxLines.getD base.maxLines
  registerCount := i.registers.getD base.registerCount
  emitAliases := base.emitAliases && !i.has .noAliases
  emitComments := base.emitComments || i.has .comments
  strictProperties := base.strictProperties || i.has .strictProperties
  requireYield := base.requireYield || i.has .requireYield

/-- The input must be a file, and the output must not be a directory. -/
def check (t : FileTree) (i : Invocation) : Except UsageError Unit := do
  match lookup? i.input with
  | none => throw (.noSuchFile i.input)
  | some .directory => throw (.isDirectory i.input)
  | some (.file _) => pure ()
  match i.output.bind lookup? with
  | some .directory => throw (.isDirectory (i.output.getD ""))
  | _ => return
where
  /-- What is at a path as it is written; an ending that only a directory can have must not
  follow a file. -/
  lookup? (text : String) : Option Entry :=
    if text.isEmpty then none
    else
      match t.at? (Path.ofText text) with
      | some (.file bytes) => if Path.namesDirectory text then none else some (.file bytes)
      | entry => entry

/-- The log, which only shows if asked for. -/
def logged (records : List LogRecord) (i : Invocation) : Printed :=
  if i.has .verbose then .log records else {}

/-- Remarks on the run, which only show if asked for and keep clear of a program on the
output. -/
def remarks (lines : List String) (i : Invocation) : Printed :=
  if i.has .verbose then .stream (i.has .stdout) lines else {}

def failed (e : Failure) (files : FileTree) (printed : Printed) (i : Invocation) : Outcome :=
  let trouble := Trouble.ofFailure e
  ⟨trouble.exit, printed ++ trouble.printed (i.has .verbose), files⟩

def showTree (input : List Char) (files : FileTree) (printed : Printed) (i : Invocation) :
    Outcome :=
  match Program.ofSource i.inputPath.text input with
  | .error e => i.failed e files printed
  | .ok p => ⟨.success, printed ++ .out [p.outline], files⟩

/-- The last remarks of a run. -/
def summary (options : Options) (c : Compiled) (i : Invocation) : Printed :=
  let registers :=
    if c.registers.isEmpty then "none" else ", ".intercalate (c.registers.map (·.name))
  let report := s!"Compiled {i.inputPath.text} -> {i.outputPath.text} " ++
    s!"({c.lineCount}/{options.maxLines} lines)"
  i.remarks [s!"Tokenized: {c.tokenCount} tokens",
      s!"Registers: {registers}"] ++
    if i.has .stdout then {} else .out [report]

def compile (options : Options) (input : List Char) (files : FileTree) (printed : Printed)
    (i : Invocation) : Outcome :=
  let x := Compile.source options i.inputPath.text input
  let printed := printed ++ i.logged x.log
  match x.result with
  | .error e => i.failed e files printed
  | .ok c =>
    let printed := printed ++ .err c.warnings
    if i.has .stdout then
      ⟨.success, printed ++ .out [c.assembly] ++ i.summary options c, files⟩
    else
      match files.writeText i.outputPath (c.assembly ++ "\n") with
      | .error e => i.failed (.file e) files printed
      | .ok files => ⟨.success, printed ++ i.summary options c, files⟩

def run (env : Options.Environment) (files : FileTree) (i : Invocation) : Outcome :=
  let (base, log) := Options.ofEnvironment env
  let printed := i.logged log ++ i.remarks [s!"Compiling {i.inputPath.text}..."]
  match files.readText i.inputPath with
  | .error e => i.failed (.file e) files printed
  | .ok input =>
    if i.has .ast then i.showTree input files printed
    else i.compile (i.options base) input files printed

end Invocation

def usage : String := s!"Usage: {programName} [OPTIONS] INPUT_FILE"

def helpLines : List String :=
  [usage, "",
    "  Compile a program for the chip.", "",
    "Options:",
    "  -o, --output FILE    Write the program to this file.",
    "  --stdout             Write the program to the output.",
    "  --ast                Print the tree of the program and exit.",
    "  --max-lines N        Number of lines that the chip holds.",
    "  --registers N        Number of general registers to use.",
    "  --no-aliases         Leave out names of devices.",
    "  --comments           Say for each line what it comes from.",
    "  --strict-properties  Reject unknown device properties.",
    "  --require-yield      Reject loops that never yield.",
    "  -v, --verbose        Show the log.",
    "  --version            Show the version and exit.",
    "  --help               Show this message and exit."]

def UsageError.message : UsageError → String
  | unknownOption text => s!"No such option: {text}"
  | missingValue option => s!"Option '{option}' requires an argument."
  | superfluousValue option => s!"Option '{option}' does not take a value."
  | badValue option value => s!"Invalid value for '{option}': '{value}'."
  | missingInput => "Missing argument 'INPUT_FILE'."
  | extraArgument text => s!"Got unexpected extra argument ({text})"
  | noSuchFile path => s!"File '{path}' does not exist."
  | isDirectory path => s!"File '{path}' is a directory."

/-- Runs a command line. A usage error leaves everything as it was. -/
def run (env : Options.Environment) (args : List String) (files : FileTree) :
    Except UsageError Outcome := do
  match ← Request.ofArguments args with
  | .version => return ⟨.success, .out [s!"{programName}, version {version}"], files⟩
  | .help => return ⟨.success, .out helpLines, files⟩
  | .compile i =>
    i.check files
    return i.run env files

end Chipwright.Command
