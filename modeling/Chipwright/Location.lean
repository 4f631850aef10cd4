/-!
# Positions and locations

A position is a place in a text; a location is a place in a named file, as reports give it.
-/
namespace Chipwright

/-- A place in a text. Lines and columns are counted from 1. -/
structure Position where
  line : Nat
  column : Nat
  deriving DecidableEq

/-- A place in a named file. -/
structure Location where
  file : String
  line : Int
  column : Int
  deriving DecidableEq

namespace Position

/-- The position of the first character of a text. -/
def first : Position := ⟨1, 1⟩

/-- The position after a character. Only a newline ends a line. -/
def next (p : Position) (c : Char) : Position :=
  if c = '\n' then ⟨p.line + 1, 1⟩ else ⟨p.line, p.column + 1⟩

/-- The position after a stretch of text. -/
def after (p : Position) (cs : List Char) : Position := cs.foldl next p

@[simp] theorem after_nil (p : Position) : p.after [] = p := rfl

@[simp] theorem after_cons (p : Position) (c : Char) (cs : List Char) :
    p.after (c :: cs) = (p.next c).after cs := rfl

theorem after_append (p : Position) (cs ds : List Char) :
    p.after (cs ++ ds) = (p.after cs).after ds := by
  simp [after]

def inFile (file : String) (p : Position) : Location := ⟨file, p.line, p.column⟩

theorem inFile_injective (file : String) : Function.Injective (inFile file) := by
  rintro ⟨line, column⟩ ⟨line', column'⟩ h
  simp only [inFile, Location.mk.injEq, true_and] at h
  simp only [Position.mk.injEq]
  omega

end Position

def Location.text (l : Location) : String := s!"{l.file}:{l.line}:{l.column}"

end Chipwright
