import Chipwright.Decimal.Numeral
import Chipwright.Chip.Register

/-!
# Arguments of the command

Options may stand anywhere before a word `--`. A long option takes its value after `=` or
from the next word, a short one from the rest of its word or from the next word; short flags
may share a word. Of several values for an option the last counts.
-/
namespace Chipwright.Command

inductive Flag
  | stdout
  | ast
  | noAliases
  | comments
  | strictProperties
  | requireYield
  | verbose
  | version
  | help
  deriving DecidableEq

/-- Options that take a value. -/
inductive Setting
  | output
  | maxLines
  | registers
  deriving DecidableEq

inductive Switch
  | flag (f : Flag)
  | setting (s : Setting)
  deriving DecidableEq

/-- What a command line says, word by word. -/
inductive Word
  | flag (f : Flag)
  | setting (s : Setting) (value : String)
  | positional (text : String)
  deriving DecidableEq

/-- Why words are no command line. -/
inductive UsageError
  | unknownOption (text : String)
  | missingValue (option : String)
  | superfluousValue (option : String)
  | badValue (option value : String)
  | missingInput
  | extraArgument (text : String)
  | noSuchFile (path : String)
  | isDirectory (path : String)

def longSwitches : List (String × Switch) :=
  [("--output", .setting .output), ("--stdout", .flag .stdout), ("--ast", .flag .ast),
    ("--max-lines", .setting .maxLines), ("--registers", .setting .registers),
    ("--no-aliases", .flag .noAliases), ("--comments", .flag .comments),
    ("--strict-properties", .flag .strictProperties), ("--require-yield", .flag .requireYield),
    ("--verbose", .flag .verbose), ("--version", .flag .version), ("--help", .flag .help)]

def shortSwitches : List (Char × Switch) := [('o', .setting .output), ('v', .flag .verbose)]

/-- The switches in a word of short ones, with the value of the last one if it takes a value.
A value that is not in the word is the next one of `rest`, and what is left of `rest` is
given back. -/
def shortWords : List Char → List String → Except UsageError (List Word × List String)
  | [], rest => .ok ([], rest)
  | c :: cs, rest =>
    match shortSwitches.lookup c with
    | none => .error (.unknownOption (String.ofList ['-', c]))
    | some (.flag f) => do
      let (words, rest) ← shortWords cs rest
      return (.flag f :: words, rest)
    | some (.setting s) =>
      match cs, rest with
      | _ :: _, _ => .ok ([.setting s (String.ofList cs)], rest)
      | [], value :: rest => .ok ([.setting s value], rest)
      | [], [] => .error (.missingValue (String.ofList ['-', c]))

/-- The words of a long switch, which may have a value after `=`. -/
def longWords (text : String) (rest : List String) :
    Except UsageError (List Word × List String) :=
  let name := String.ofList (text.toList.takeWhile (· ≠ '='))
  let given := (text.toList.dropWhile (· ≠ '=')).tail?.map String.ofList
  match longSwitches.lookup name, given, rest with
  | none, _, _ => .error (.unknownOption name)
  | some (.flag f), none, _ => .ok ([.flag f], rest)
  | some (.flag _), some _, _ => .error (.superfluousValue name)
  | some (.setting s), some value, _ => .ok ([.setting s value], rest)
  | some (.setting s), none, value :: rest => .ok ([.setting s value], rest)
  | some (.setting _), none, [] => .error (.missingValue name)

/-- The words at the front of a command line that belong together, and the rest. -/
def firstWords (text : String) (rest : List String) :
    Except UsageError (List Word × List String) :=
  match text.toList with
  | '-' :: '-' :: _ => longWords text rest
  | '-' :: c :: cs => shortWords (c :: cs) rest
  | _ => .ok ([.positional text], rest)

theorem shortWords_length_le {cs : List Char} {rest rest' : List String} {words : List Word}
    (h : shortWords cs rest = .ok (words, rest')) : rest'.length ≤ rest.length := by
  induction cs generalizing words with
  | nil => simp_all [shortWords]
  | cons c cs ih =>
    unfold shortWords at h
    split at h
    · cases h
    · cases hs : shortWords cs rest with
      | error e => rw [hs] at h; cases h
      | ok r =>
        rw [hs] at h
        cases h
        exact ih hs
    · split at h
      · cases h; exact Nat.le_refl _
      · cases h; simp
      · cases h

theorem longWords_length_le {text : String} {rest rest' : List String} {words : List Word}
    (h : longWords text rest = .ok (words, rest')) : rest'.length ≤ rest.length := by
  unfold longWords at h
  dsimp only at h
  split at h <;> cases h <;> simp

theorem firstWords_length_le {text : String} {rest rest' : List String} {words : List Word}
    (h : firstWords text rest = .ok (words, rest')) : rest'.length ≤ rest.length := by
  unfold firstWords at h
  split at h
  · exact longWords_length_le h
  · exact shortWords_length_le h
  · cases h; exact Nat.le_refl _

/-- Reads all words. -/
def words : List String → Except UsageError (List Word)
  | [] => .ok []
  | text :: rest =>
    if text = "--" then .ok (rest.map .positional)
    else
      match _h : firstWords text rest with
      | .error e => .error e
      | .ok (first, rest') =>
        match words rest' with
        | .error e => .error e
        | .ok ws => .ok (first ++ ws)
termination_by args => args.length
decreasing_by
  have := firstWords_length_le _h
  simp only [List.length_cons]
  omega

/-- What is to be compiled, and how. -/
structure Invocation where
  input : String
  output : Option String
  flags : List Flag
  maxLines : Option Int
  registers : Option Int

/-- What the command is asked to do. -/
inductive Request
  | version
  | help
  | compile (i : Invocation)

/-- The last value of a setting. -/
def lastValue (s : Setting) (ws : List Word) : Option String :=
  (ws.filterMap fun
    | .setting t value => if t = s then some value else none
    | _ => none).getLast?

/-- A number in a range, if it is given. -/
def numberValue (option : String) (valid : Int → Bool) :
    Option String → Except UsageError (Option Int)
  | none => .ok none
  | some text =>
    match (Decimal.whole? text).filter valid with
    | some n => .ok (some n)
    | none => .error (.badValue option text)

def flagsOf (ws : List Word) : List Flag :=
  ws.filterMap fun
    | .flag f => some f
    | _ => none

def positionalsOf (ws : List Word) : List String :=
  ws.filterMap fun
    | .positional text => some text
    | _ => none

def Invocation.ofWords (ws : List Word) : Except UsageError Invocation := do
  let maxLines ← numberValue "--max-lines" (1 ≤ ·) (lastValue .maxLines ws)
  let registers ← numberValue "--registers"
    (fun n => 1 ≤ n && n ≤ Register.generalCount) (lastValue .registers ws)
  match positionalsOf ws with
  | [] => throw .missingInput
  | [input] =>
    return { input, output := lastValue .output ws, flags := flagsOf ws, maxLines, registers }
  | _ :: extra :: _ => throw (.extraArgument extra)

/-- Reads a command line. A request for the version or for help, whichever comes first, is
met before anything else is looked at. -/
def Request.ofArguments (args : List String) : Except UsageError Request := do
  let ws ← words args
  match (flagsOf ws).find? fun f => f = .version || f = .help with
  | some .version => return .version
  | some _ => return .help
  | none =>
    let i ← Invocation.ofWords ws
    return .compile i

end Chipwright.Command
