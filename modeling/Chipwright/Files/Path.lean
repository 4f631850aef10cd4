/-!
# Paths

A path is cut at its slashes. Empty parts and parts `.` say nothing and are left out; `..`
stays, since what it means depends on the files.
-/
namespace Chipwright

structure Path where
  /-- The slashes that a path from the root starts with. -/
  root : String := ""
  parts : List String
  deriving DecidableEq

namespace Path

/-- The stretches between slashes. -/
def pieces : List Char → List (List Char)
  | [] => [[]]
  | c :: cs =>
    if c = '/' then [] :: pieces cs
    else
      match pieces cs with
      | [] => [[c]]
      | piece :: rest => (c :: piece) :: rest

/-- Of the slashes at the start of a path one is kept, or two if there are just two. -/
def rootOf (cs : List Char) : String :=
  match (cs.takeWhile (· = '/')).length with
  | 0 => ""
  | 2 => "//"
  | _ => "/"

def ofText (text : String) : Path where
  root := rootOf text.toList
  parts := ((pieces text.toList).map String.ofList).filter fun part => part ≠ "" && part ≠ "."

def text (p : Path) : String :=
  if p.root.isEmpty && p.parts.isEmpty then "." else p.root ++ "/".intercalate p.parts

/-- The steps from the working directory. The step to the root is a slash. -/
def steps (p : Path) : List String := if p.root.isEmpty then p.parts else "/" :: p.parts

/-- Whether a path, as it is written, can only name a directory: its last stretch is empty
or a dot. -/
def namesDirectory (text : String) : Bool :=
  match (pieces text.toList).getLast? with
  | none => true
  | some piece => piece = [] || piece = ['.']

/-- A name without its ending. The ending starts at the last dot, and there is none if that
dot is the first or the last character. -/
def stem (name : String) : String :=
  let reversed := name.toList.reverse
  let ending := reversed.takeWhile (· ≠ '.')
  match reversed.drop ending.length with
  | '.' :: front => if ending.isEmpty || front.isEmpty then name else String.ofList front.reverse
  | _ => name

/-- The path with another ending of its last part. -/
def withEnding (ending : String) (p : Path) : Path :=
  match p.parts.getLast? with
  | none => p
  | some name => { p with parts := p.parts.dropLast ++ [stem name ++ ending] }

end Path

end Chipwright
