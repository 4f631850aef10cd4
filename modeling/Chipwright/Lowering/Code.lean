import Chipwright.Failure

/-!
# Code of a section

Statements give code piece by piece: lines, labels, and notes on what the next line is for.
-/
namespace Chipwright.Lowering

/-- A construct of the source that lines come from. -/
structure Origin where
  text : String
  pos : Position
  deriving DecidableEq

structure Line where
  opcode : Opcode
  operands : List Operand
  origin : Origin
  deriving DecidableEq

inductive Piece
  | line (l : Line)
  | label (l : Label)
  /-- A remark on the next line. -/
  | note (text : String)
  /-- The end of a statement. Remarks that no line has taken up are dropped. -/
  | finish
  deriving DecidableEq

abbrev Code := List Piece

def Origin.line (o : Origin) (opcode : Opcode) (operands : List Operand) : Piece :=
  .line ⟨opcode, operands, o⟩

/-- A section under construction, with the remarks for its next line. -/
structure Draft where
  content : Section
  notes : List String := []

namespace Draft

def instruction (file : String) (comments : Bool) (l : Line) (d : Draft) : Instruction where
  opcode := l.opcode
  operands := l.operands
  location := some (l.origin.pos.inFile file)
  origin := some l.origin.text
  comment := if comments && !d.notes.isEmpty then some ("; ".intercalate d.notes) else none

def add (file : String) (comments : Bool) (d : Draft) : Piece → Except Failure Draft
  | .line l =>
    match (d.instruction file comments l).checked with
    | .ok i => .ok ⟨d.content.emit i, []⟩
    | .error fault => .error (.chip fault)
  | .label l =>
    match d.content.place l with
    | .ok content => .ok { d with content }
    | .error e => .error (.link e)
  | .note text => .ok { d with notes := d.notes ++ [text] }
  | .finish => .ok { d with notes := [] }

def addAll (file : String) (comments : Bool) : Draft → Code → Except Failure Draft
  | d, [] => .ok d
  | d, piece :: pieces =>
    match d.add file comments piece with
    | .ok d => addAll file comments d pieces
    | .error e => .error e

end Draft

/-- The section that code makes up. -/
def Code.toSection (file : String) (comments : Bool) (name : String) (code : Code) :
    Except Failure Section := do
  let d ← Draft.addAll file comments { content := { name } } code
  return d.content

end Chipwright.Lowering
