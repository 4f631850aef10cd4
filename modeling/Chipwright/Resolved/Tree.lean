import Chipwright.Binding
import Chipwright.Program.Tree

/-!
# Resolved programs

A program in which every name has been replaced by what it stands for. Names of devices,
constants and functions are only defined at the top level.
-/
namespace Chipwright.Resolved

inductive Expr
  | literal (pos : Position) (value : Literal)
  | var (pos : Position) (v : Variable)
  | const (pos : Position) (c : Constant)
  | not (pos : Position) (operand : Expr)
  | binary (op : BinaryOp) (left right : Expr)
  deriving DecidableEq

/-- A slot, or a name for one. -/
inductive Device
  | direct (pos : Position) (slot : Slot)
  | named (pos : Position) (d : DeviceName)
  deriving DecidableEq

def Device.slot : Device → Slot
  | direct _ slot => slot
  | named _ d => d.slot

def Device.pos : Device → Position
  | direct pos _ => pos
  | named pos _ => pos

inductive Stmt
  | define (pos : Position) (v : Variable) (value : Expr)
  | assign (pos : Position) (v : Variable) (value : Expr)
  | block (body : List Stmt)
  | call (pos : Position) (f : FunctionHead) (args : List Expr)
  | loop (pos : Position) (body : List Stmt)
  | ifThen (pos : Position) (condition : Expr) (thenBody : List Stmt)
  | ifElse (pos : Position) (condition : Expr) (thenBody elseBody : List Stmt)
  | read (pos : Position) (device : Device) (property : String) (targetPos : Position)
      (v : Variable)
  | write (pos : Position) (value : Expr) (device : Device) (property : String)
  | yield (pos : Position)

structure Function where
  pos : Position
  head : FunctionHead
  params : List Variable
  body : List Stmt

def Function.name (f : Function) : String := f.head.name

/-- What stands at the top level. -/
inductive Item
  | nameSlot (pos slotPos : Position) (d : DeviceName)
  | const (c : Constant)
  | func (f : Function)
  | stmt (s : Stmt)

structure Program where
  items : List Item

def Item.func? : Item → Option Function
  | func f => some f
  | _ => none

/-- The functions, in the order of the source. -/
def Program.functions (p : Program) : List Function := p.items.filterMap Item.func?

def Program.function? (name : String) (p : Program) : Option Function :=
  p.functions.find? (·.name = name)

end Chipwright.Resolved
