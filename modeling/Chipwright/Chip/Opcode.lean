import Chipwright.Chip.Operand

/-!
# Opcodes

The instructions of the chip that programs are made of, and the operands they take.
-/
namespace Chipwright

inductive Opcode
  | add
  | sub
  | mul
  | div
  | seq
  | sne
  | slt
  | sgt
  | sle
  | sge
  | seqz
  | and
  | or
  | move
  | jump
  | jumpAndLink
  | branchZero
  | yield
  | load
  | store
  | nameDevice
  deriving DecidableEq

namespace Opcode

def all : List Opcode :=
  [add, sub, mul, div, seq, sne, slt, sgt, sle, sge, seqz, and, or, move, jump, jumpAndLink,
    branchZero, yield, load, store, nameDevice]

def mnemonic : Opcode → String
  | add => "add"
  | sub => "sub"
  | mul => "mul"
  | div => "div"
  | seq => "seq"
  | sne => "sne"
  | slt => "slt"
  | sgt => "sgt"
  | sle => "sle"
  | sge => "sge"
  | seqz => "seqz"
  | and => "and"
  | or => "or"
  | move => "move"
  | jump => "j"
  | jumpAndLink => "jal"
  | branchZero => "beqz"
  | yield => "yield"
  | load => "l"
  | store => "s"
  | nameDevice => "alias"

def ofMnemonic? (text : String) : Option Opcode := all.find? (·.mnemonic = text)

/-- The kinds of the operands, in order. A register that is written comes first. -/
def operands : Opcode → List OperandKind
  | add | sub | mul | div | seq | sne | slt | sgt | sle | sge | and | or =>
    [.register, .value, .value]
  | seqz | move => [.register, .value]
  | jump | jumpAndLink => [.line]
  | branchZero => [.value, .line]
  | yield => []
  | load => [.register, .device, .logicType]
  | store => [.device, .logicType, .value]
  | nameDevice => [.name, .device]

/-- What an instruction does, in one line. -/
def summary : Opcode → String
  | add => "r = a + b"
  | sub => "r = a - b"
  | mul => "r = a * b"
  | div => "r = a / b"
  | seq => "r = a == b"
  | sne => "r = a != b"
  | slt => "r = a < b"
  | sgt => "r = a > b"
  | sle => "r = a <= b"
  | sge => "r = a >= b"
  | seqz => "r = a == 0"
  | and => "r = a && b"
  | or => "r = a || b"
  | move => "r = a"
  | jump => "jump to line"
  | jumpAndLink => "jump to line, ra = next line"
  | branchZero => "jump to line if a == 0"
  | yield => "pause until the next tick"
  | load => "r = device.Property"
  | store => "device.Property = a"
  | nameDevice => "label a device screw"

end Opcode

end Chipwright
