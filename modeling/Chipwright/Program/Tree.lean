import Chipwright.Chip.Device
import Chipwright.Literal
import Chipwright.Location

/-!
# Programs

A program as it is written: expressions and statements over names that are not resolved
yet. A node that starts with another one has the position of that one.
-/
namespace Chipwright

inductive BinaryOp
  | add
  | sub
  | mul
  | div
  | eq
  | ne
  | lt
  | gt
  | le
  | ge
  | and
  | or
  deriving DecidableEq

/-- An occurrence of a name. -/
structure Name where
  text : String
  pos : Position
  deriving DecidableEq

inductive Expr
  | literal (pos : Position) (value : Literal)
  | name (x : Name)
  | not (pos : Position) (operand : Expr)
  | binary (op : BinaryOp) (left right : Expr)
  deriving DecidableEq

/-- A device as a statement refers to it: by its slot or by a name given to the slot. -/
inductive Device
  | direct (pos : Position) (slot : Slot)
  | named (x : Name)
  deriving DecidableEq

inductive Stmt
  /-- `def slot as name;` -/
  | nameSlot (pos slotPos : Position) (slot : Slot) (name : Name)
  /-- `const name = value;` -/
  | const (pos : Position) (name : Name) (valuePos : Position) (value : Literal)
  /-- `let name = value;` -/
  | define (pos : Position) (name : Name) (value : Expr)
  | assign (target : Name) (value : Expr)
  | block (pos : Position) (body : List Stmt)
  | function (pos : Position) (name : Name) (params : List Name) (bodyPos : Position)
      (body : List Stmt)
  | call (callee : Name) (args : List Expr)
  | loop (pos bodyPos : Position) (body : List Stmt)
  | ifThen (pos : Position) (condition : Expr) (thenPos : Position) (thenBody : List Stmt)
  | ifElse (pos : Position) (condition : Expr) (thenPos : Position) (thenBody : List Stmt)
      (elsePos : Position) (elseBody : List Stmt)
  /-- `read device.property into target;` -/
  | read (pos : Position) (device : Device) (property : String) (target : Name)
  /-- `write value into device.property;` -/
  | write (pos : Position) (value : Expr) (device : Device) (property : String)
  | yield (pos : Position)

structure Program where
  statements : List Stmt

namespace BinaryOp

def text : BinaryOp → String
  | add => "+"
  | sub => "-"
  | mul => "*"
  | div => "/"
  | eq => "=="
  | ne => "!="
  | lt => "<"
  | gt => ">"
  | le => "<="
  | ge => ">="
  | and => "&&"
  | or => "||"

def isComparison : BinaryOp → Bool
  | eq | ne | lt | gt | le | ge => true
  | _ => false

/-- How tightly an operator binds. -/
def precedence : BinaryOp → Nat
  | or => 1
  | and => 2
  | eq | ne | lt | gt | le | ge => 3
  | add | sub => 4
  | mul | div => 5

end BinaryOp

def Expr.pos : Expr → Position
  | literal pos _ => pos
  | name x => x.pos
  | not pos _ => pos
  | binary _ left _ => left.pos

namespace Device

def pos : Device → Position
  | direct pos _ => pos
  | named x => x.pos

def text : Device → String
  | direct _ slot => slot.name
  | named x => x.text

end Device

def Stmt.pos : Stmt → Position
  | nameSlot pos _ _ _ => pos
  | const pos _ _ _ => pos
  | define pos _ _ => pos
  | assign target _ => target.pos
  | block pos _ => pos
  | function pos _ _ _ _ => pos
  | call callee _ => callee.pos
  | loop pos _ _ => pos
  | ifThen pos _ _ _ => pos
  | ifElse pos _ _ _ _ _ => pos
  | read pos _ _ _ => pos
  | write pos _ _ _ => pos
  | yield pos => pos

end Chipwright
