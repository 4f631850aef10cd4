import Chipwright.Chip.Device
import Chipwright.Literal
import Chipwright.Location

/-!
# Bindings

What a name stands for: a variable, a constant, a device or a function.
-/
namespace Chipwright

/-- A variable or a parameter. Different variables have different numbers, whatever their
names. -/
structure Variable where
  id : Nat
  name : String
  pos : Position
  /-- The depth of the scope that it is defined in. -/
  depth : Nat
  /-- The function that it belongs to, if it is not one of the top-level code. -/
  function : Option String
  deriving DecidableEq

structure Constant where
  name : String
  pos : Position
  value : Literal
  deriving DecidableEq

/-- A name for a device slot. -/
structure DeviceName where
  name : String
  pos : Position
  slot : Slot
  deriving DecidableEq

/-- A function as its callers know it. -/
structure FunctionHead where
  name : String
  pos : Position
  arity : Nat
  deriving DecidableEq

inductive Binding
  | var (v : Variable)
  | const (c : Constant)
  | device (d : DeviceName)
  | func (f : FunctionHead)
  deriving DecidableEq

namespace Binding

def name : Binding → String
  | var v => v.name
  | const c => c.name
  | device d => d.name
  | func f => f.name

/-- The place of the definition. -/
def pos : Binding → Position
  | var v => v.pos
  | const c => c.pos
  | device d => d.pos
  | func f => f.pos

/-- The place of the definition in its file. -/
def place (file : String) (b : Binding) : Location := b.pos.inFile file

/-- The depth of the scope of the definition. All but variables are defined at the root. -/
def depth : Binding → Nat
  | var v => v.depth
  | _ => 0

/-- What messages call such a thing. -/
def kind : Binding → String
  | var _ => "variable"
  | const _ => "constant"
  | device _ => "device alias"
  | func _ => "function"

end Binding

end Chipwright
