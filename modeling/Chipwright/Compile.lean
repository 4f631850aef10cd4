import Chipwright.Files.Tree
import Chipwright.Lowering.Program
import Chipwright.Program.Parser
import Chipwright.Resolved.Occurrence
import Chipwright.Resolved.Resolver

/-!
# Compilation

From the text of a program to the text for the chip. Every stage tells the log when it is
done, and a fault of the program is shown with the line that it is on.
-/
namespace Chipwright

/-- What a compilation gives. -/
structure Compiled where
  file : String
  assembly : String
  /-- The number of tokens of the source, with the one that marks the end. -/
  tokenCount : Nat
  lineCount : Nat
  /-- The general registers that the program uses, by number. -/
  registers : List Register
  warnings : List String

/-- A result, or why there is none, with what was logged on the way. -/
structure Logged (α : Type) where
  log : List LogRecord
  result : Except Failure α

namespace Logged

def pure {α : Type} (a : α) : Logged α := ⟨[], .ok a⟩

/-- Goes on with a result; the log is that of both steps. -/
def bind {α β : Type} (x : Logged α) (f : α → Logged β) : Logged β :=
  match x.result with
  | .error e => ⟨x.log, .error e⟩
  | .ok a => ⟨x.log ++ (f a).log, (f a).result⟩

instance : Monad Logged where
  pure := pure
  bind := bind

def ofExcept {α : Type} (result : Except Failure α) : Logged α := ⟨[], result⟩

def tell (level : Level) (message : String) : Logged Unit := ⟨[⟨level, message⟩], .ok ()⟩

end Logged

namespace TokenList

/-- Cuts a source into tokens. -/
def ofSource (file : String) (source : List Char) : Except Failure TokenList :=
  match Lexer.scan source with
  | .ok ts => .ok ts
  | .error e => .error (e.failure file source)

/-- Reads tokens of a source as a program. -/
def program (file : String) (source : List Char) (ts : TokenList) (limits : Limits := {}) :
    Except Failure Program :=
  match Program.parse ts.tokens limits with
  | .ok p => .ok p
  | .error fault => .error (fault.failure file source ts.finish)

end TokenList

/-- Reads a source as a program. -/
def Program.ofSource (file : String) (source : List Char) (limits : Limits := {}) :
    Except Failure Program := do
  let ts ← TokenList.ofSource file source
  ts.program file source limits

namespace Compile

/-- The name of a source that comes from no file. -/
def unnamed : String := "<input>"

/-- All stages, from the source to the linked program. -/
def stages (options : Options) (file : String) (source : List Char) : Logged Compiled := do
  let ts ← .ofExcept (TokenList.ofSource file source)
  Logged.tell .debug s!"Lexed {ts.size} tokens"
  let p ← .ofExcept (ts.program file source options.limits)
  Logged.tell .debug s!"Parsed {p.statements.length} top-level statements"
  let resolved := p.resolve file options.strictProperties options.limits
  let r ← .ofExcept (resolved.mapError Failure.atFault)
  Logged.tell .debug s!"Resolved {r.names.length} identifiers, {r.functions.length} functions"
  let (log, generated) := r.generate file options
  let g ← ⟨log, generated.mapError Failure.atFault⟩
  let linked ← .ofExcept (g.assembly.link.mapError .link)
  Logged.tell .debug
    s!"Linked {linked.size} lines, {g.assembly.labels.length} labels"
  return {
    file
    assembly := linked.render options.emitComments
    tokenCount := ts.size
    lineCount := linked.size
    registers := g.registers
    warnings := (log.filter (·.level = .warning)).map (·.message) }

/-- Shows a fault of the program with the line of the source that it is on. -/
def withSource (source : List Char) : Failure → Failure
  | .diagnostic d => .diagnostic (d.attachSource source)
  | e => e

/-- What the log says when a compilation fails. Only faults of the program are told. -/
def failureLog (file : String) : Failure → List LogRecord
  | .diagnostic d => [⟨.debug, s!"Compile of {file} failed: {d.cause.kind}"⟩]
  | _ => []

/-- What the log says when a compilation is done. It names the limit on the lines, so that one
must not be too long to be written. -/
def successLog (options : Options) (c : Compiled) : Except Failure (List LogRecord) :=
  if Decimal.isWritable options.maxLines then
    .ok [⟨.info, s!"Compiled {c.file}: {c.lineCount}/{options.maxLines} lines, " ++
      s!"{c.registers.length} registers"⟩]
  else .error .unwritable

/-- Compiles a source. -/
def source (options : Options) (file : String) (text : List Char) : Logged Compiled :=
  let x := stages options file text
  match x.result with
  | .ok c =>
    match successLog options c with
    | .ok log => ⟨x.log ++ log, .ok c⟩
    | .error e => ⟨x.log, .error e⟩
  | .error e => ⟨x.log ++ failureLog file e, .error (withSource text e)⟩

/-- The text for the chip or the text of a report. A failure that is no fault of the program
is passed on. -/
def text (input : List Char) : Except Failure (Except String String) :=
  match (source {} unnamed input).result with
  | .ok c => .ok (.ok c.assembly)
  | .error (.diagnostic d) => .ok (.error d.text)
  | .error e => .error e

/-- Compiles the source in a file. If an output path is given, the text for the chip is
written there, with a newline at its end. -/
def file (options : Options) (path output : String) (t : FileTree) :
    Except Failure (String × FileTree) := do
  unless ← (t.contains (Path.ofText path)).mapError .file do
    throw (.file (.noSource path))
  let input ← (t.readText (Path.ofText path)).mapError .file
  let c ← (source options path input).result
  if output.isEmpty then return (c.assembly, t)
  let t ← (t.writeText (Path.ofText output) (c.assembly ++ "\n")).mapError .file
  return (c.assembly, t)

end Compile

end Chipwright
