import Chipwright.Chip.Register
import Chipwright.Chip.Device
import Chipwright.Literal
import Chipwright.Text.Quoted

/-!
# Operands

What an instruction works on. Labels and parameters are symbolic: linking puts a line
number and a register in their place.
-/
namespace Chipwright

/-- A line that jumps lead to. -/
inductive Label
  | named (text : String)
  /-- The first line of a loop. -/
  | loop (n : Nat)
  /-- The first line of the second branch of a conditional. -/
  | ifElse (n : Nat)
  /-- The line after a conditional. -/
  | ifEnd (n : Nat)
  /-- The first line of a function. -/
  | function (name : String)
  /-- The line after the program. -/
  | programEnd
  deriving DecidableEq

def Label.text : Label → String
  | named text => text
  | loop n => s!"loop_{n}"
  | ifElse n => s!"if_{n}_else"
  | ifEnd n => s!"if_{n}_end"
  | function name => s!"fn_{name}"
  | programEnd => "end"

inductive Operand
  | register (r : Register)
  | device (slot : Slot)
  | number (value : Literal)
  | label (l : Label)
  /-- The register in which a function takes its parameter with the given index. -/
  | parameter (function : String) (index : Int)
  | name (text : String)
  deriving DecidableEq

/-- The kinds of place that an instruction has for operands. -/
inductive OperandKind
  | register
  | value
  | device
  | logicType
  | name
  | line
  deriving DecidableEq

namespace Operand

def text : Operand → String
  | register r => r.name
  | device slot => slot.name
  | number value => value.immediate
  | label l => l.text
  | parameter function index => s!"{function}#{index}"
  | name text => text

/-- An operand in a message. -/
def description : Operand → String
  | register r => s!"Register(index={r.index.val})"
  | device slot => s!"DeviceSlot(name={Text.quoted slot.name})"
  | number value => s!"Number(value={value.description})"
  | label l => s!"Label(name={Text.quoted l.text})"
  | parameter function index => s!"ParameterRef(function={Text.quoted function}, index={index})"
  | name text => s!"Name(text={Text.quoted text})"

def isSymbolic : Operand → Bool
  | label _ => true
  | parameter _ _ => true
  | _ => false

end Operand

namespace OperandKind

def all : List OperandKind := [register, value, device, logicType, name, line]

def text : OperandKind → String
  | register => "REGISTER"
  | value => "VALUE"
  | device => "DEVICE"
  | logicType => "LOGIC_TYPE"
  | name => "NAME"
  | line => "LINE"

def accepts : OperandKind → Operand → Bool
  | register, .register _ => true
  | register, .parameter _ _ => true
  | value, .register _ => true
  | value, .parameter _ _ => true
  | value, .number _ => true
  | device, .device _ => true
  | logicType, .name _ => true
  | name, .name _ => true
  | line, .label _ => true
  | line, .number _ => true
  | line, .register _ => true
  | _, _ => false

end OperandKind

end Chipwright
