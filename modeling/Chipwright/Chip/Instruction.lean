import Chipwright.Chip.Opcode
import Chipwright.Location

/-!
# Instructions

A line of a program for the chip, with where it comes from. An instruction is well formed
if its operands fit its opcode.
-/
namespace Chipwright

structure Instruction where
  opcode : Opcode
  operands : List Operand
  location : Option Location := none
  /-- The construct of the source that the line belongs to. -/
  origin : Option String := none
  comment : Option String := none

/-- What is wrong with the parts of an instruction. -/
inductive ChipFault
  | registerIndex (n : Int)
  | slotName (text : String)
  | mnemonic (text : String)
  | operandCount (opcode : Opcode) (actual : Nat)
  | operandKind (opcode : Opcode) (operand : Operand) (kind : OperandKind)

def ChipFault.message : ChipFault → String
  | registerIndex n => s!"invalid register index {n}"
  | slotName text => s!"invalid device slot '{text}'"
  | mnemonic text => Text.quoted text
  | operandCount opcode actual =>
    s!"'{opcode.mnemonic}' takes {opcode.operands.length} operands, got {actual}"
  | operandKind opcode operand kind =>
    s!"'{opcode.mnemonic}' cannot take {operand.description} as a {kind.text} operand"

def Register.ofIndex (n : Int) : Except ChipFault Register :=
  match ofIndex? n with
  | some r => .ok r
  | none => .error (.registerIndex n)

def Slot.ofName (text : String) : Except ChipFault Slot :=
  match ofName? text with
  | some slot => .ok slot
  | none => .error (.slotName text)

def Opcode.ofMnemonic (text : String) : Except ChipFault Opcode :=
  match ofMnemonic? text with
  | some opcode => .ok opcode
  | none => .error (.mnemonic text)

namespace Instruction

/-- The first operand that does not fit its place. -/
def misfit? : List OperandKind → List Operand → Option (OperandKind × Operand)
  | kind :: kinds, x :: xs => if kind.accepts x then misfit? kinds xs else some (kind, x)
  | _, _ => none

def fault? (i : Instruction) : Option ChipFault :=
  if i.operands.length ≠ i.opcode.operands.length then
    some (.operandCount i.opcode i.operands.length)
  else
    (misfit? i.opcode.operands i.operands).map fun (kind, x) => .operandKind i.opcode x kind

/-- The operands are as many as the opcode takes, and each fits its place. -/
def WellFormed (i : Instruction) : Prop :=
  i.operands.length = i.opcode.operands.length ∧
    ∀ p ∈ i.opcode.operands.zip i.operands, p.1.accepts p.2 = true

/-- An instruction, if it is well formed. -/
def checked (i : Instruction) : Except ChipFault Instruction :=
  match i.fault? with
  | some fault => .error fault
  | none => .ok i

def isLinked (i : Instruction) : Bool := !i.operands.any Operand.isSymbolic

/-- The line as text, with or without its comment. -/
def render (comments : Bool) (i : Instruction) : String :=
  let code := " ".intercalate (i.opcode.mnemonic :: i.operands.map Operand.text)
  match comments, i.comment with
  | true, some comment => if comment.isEmpty then code else s!"{code} # {comment}"
  | _, _ => code

end Instruction

end Chipwright
