import Chipwright.Files.Error
import Chipwright.Files.Path
import Chipwright.Text.Lines

/-!
# File trees

The files and directories that can be reached from the working directory.
-/
namespace Chipwright

inductive Entry
  | directory
  | file (bytes : List UInt8)

/-- Entries by their parts from the working directory on. A part `/` leads to the root and a
part `..` out of the working directory. -/
structure FileTree where
  entries : List (List String × Entry)

namespace FileTree

/-- The working directory, the directories above it, and the root are always there. -/
def isLandmark (key : List String) : Bool := key.all (· = "..") || key = ["/"]

def entry? (key : List String) (t : FileTree) : Option Entry :=
  if isLandmark key then some .directory else t.entries.lookup key

/-- Puts a file in the place of what is there. -/
def insert (key : List String) (bytes : List UInt8) (t : FileTree) : FileTree :=
  ⟨t.entries.filter (·.1 ≠ key) ++ [(key, .file bytes)]⟩

/-- Why a path leads nowhere. -/
inductive Obstacle
  | missing
  | notDirectory
  | nameTooLong
  | nullCharacter
  deriving DecidableEq

/-- The most bytes that one part of a path may have. -/
def partLimit : Nat := 255

/-- The most bytes that a path may have. -/
def pathLimit : Nat := 4095

/-- One step from a directory. `..` goes back, or out of the working directory. -/
def step (key : List String) (part : String) : List String :=
  if part = ".." then
    match key.getLast? with
    | none => [".."]
    | some ".." => key ++ [".."]
    | some "/" => key
    | some _ => key.dropLast
  else key ++ [part]

/-- The key that parts lead to from a directory. All but the last must be directories. -/
def walk (t : FileTree) : List String → List String → Except Obstacle (List String)
  | key, [] => .ok key
  | key, part :: parts =>
    match t.entry? key with
    | none => .error .missing
    | some (.file _) => .error .notDirectory
    | some .directory =>
      if partLimit < part.utf8ByteSize then .error .nameTooLong
      else t.walk (step key part) parts

def key (t : FileTree) (p : Path) : Except Obstacle (List String) :=
  if p.text.toList.contains (Char.ofNat 0) then .error .nullCharacter
  else if pathLimit < p.text.utf8ByteSize then .error .nameTooLong
  else t.walk [] p.steps

/-- What is at a path, if anything. -/
def at? (p : Path) (t : FileTree) : Option Entry :=
  match t.key p with
  | .ok key => t.entry? key
  | .error _ => none

def obstacleError (p : Path) : Obstacle → FileError
  | .missing => .missing p.text
  | .notDirectory => .notDirectory p.text
  | .nameTooLong => .nameTooLong p.text
  | .nullCharacter => .nullCharacter

/-- Whether there is something at a path. A path that is too long has no answer. -/
def contains (p : Path) (t : FileTree) : Except FileError Bool :=
  match t.key p with
  | .error .nameTooLong => .error (.nameTooLong p.text)
  | .error _ => .ok false
  | .ok key => .ok (t.entry? key).isSome

def read (p : Path) (t : FileTree) : Except FileError (List UInt8) :=
  match t.key p with
  | .error o => .error (obstacleError p o)
  | .ok key =>
    match t.entry? key with
    | none => .error (.missing p.text)
    | some .directory => .error (.isDirectory p.text)
    | some (.file bytes) => .ok bytes

/-- Reads a text. Each way to end a line is read as a newline. -/
def readText (p : Path) (t : FileTree) : Except FileError (List Char) := do
  let bytes ← t.read p
  match Text.Utf8.decode bytes with
  | .error fault => throw (.undecodable fault)
  | .ok cs => return Text.unifyNewlines [] cs

/-- Writes a text; the directory must be there. -/
def writeText (p : Path) (text : String) (t : FileTree) : Except FileError FileTree :=
  match t.key p with
  | .error o => .error (obstacleError p o)
  | .ok key =>
    match t.entry? key with
    | some .directory => .error (.isDirectory p.text)
    | _ => .ok (t.insert key (Text.Utf8.encode text))

/-- The files that are not in an older tree with the same content. -/
def changes (old t : FileTree) : List (List String × List UInt8) :=
  t.entries.filterMap fun (key, entry) =>
    match entry, old.entry? key with
    | .directory, _ => none
    | .file bytes, some (.file before) => if bytes = before then none else some (key, bytes)
    | .file bytes, _ => some (key, bytes)

end FileTree

end Chipwright
