import Chipwright.Chip.Instruction

/-!
# Sections and linking

The top-level code and each function fill a section of their own. Linking puts the
sections one after another, a line number for every label and a register for every
parameter.
-/
namespace Chipwright

structure Section where
  name : String
  instructions : List Instruction := []
  /-- Labels in the order of their placing, each with the number of instructions before it. -/
  labels : List (Label × Nat) := []

/-- Sections that still have symbolic operands, with the registers of parameters. Of two
entries for a parameter the first counts. -/
structure Assembly where
  sections : List Section
  parameters : List ((String × Int) × Register) := []

/-- A program for the chip. -/
structure Linked where
  instructions : List Instruction

inductive LinkError
  | placedTwice (label : Label) (sectionName : String)
  | inTwoSections (label : Label)
  | undefined (label : Label)
  | unallocated (function : String) (index : Int)

def LinkError.message : LinkError → String
  | placedTwice label sectionName =>
    s!"label '{label.text}' placed twice in section '{sectionName}'"
  | inTwoSections label => s!"label '{label.text}' defined in more than one section"
  | undefined label => s!"undefined label '{label.text}'"
  | unallocated function index => s!"unallocated parameter {function}#{index}"

namespace Section

def size (s : Section) : Nat := s.instructions.length

def emit (i : Instruction) (s : Section) : Section :=
  { s with instructions := s.instructions ++ [i] }

/-- Marks the place of the next instruction. -/
def place (label : Label) (s : Section) : Except LinkError Section :=
  if (s.labels.lookup label).isSome then .error (.placedTwice label s.name)
  else .ok { s with labels := s.labels ++ [(label, s.size)] }

end Section

namespace Assembly

def instructions (a : Assembly) : List Instruction := a.sections.flatMap (·.instructions)

def size (a : Assembly) : Nat := a.instructions.length

/-- The labels of all sections, each with its place in its section. -/
def labels (a : Assembly) : List (Label × Nat) := a.sections.flatMap (·.labels)

/-- Adds the labels of a section that starts at the given line. -/
def addLabels (offset : Nat) : List (Label × Nat) → List (Label × Nat) →
    Except LinkError (List (Label × Nat))
  | known, [] => .ok known
  | known, (label, position) :: labels =>
    if (known.lookup label).isSome then .error (.inTwoSections label)
    else addLabels offset (known ++ [(label, offset + position)]) labels

/-- The lines of all labels, where the first section starts at the given line. -/
def addressesFrom (offset : Nat) (known : List (Label × Nat)) :
    List Section → Except LinkError (List (Label × Nat))
  | [] => .ok known
  | s :: ss =>
    match addLabels offset known s.labels with
    | .error e => .error e
    | .ok known' => addressesFrom (offset + s.size) known' ss

/-- The line of every label. A label at the end of a section is on the first line of the
next one, or on the line after the program. -/
def addresses (a : Assembly) : Except LinkError (List (Label × Nat)) :=
  addressesFrom 0 [] a.sections

def resolve (addresses : List (Label × Nat)) (parameters : List ((String × Int) × Register)) :
    Operand → Except LinkError Operand
  | .label l =>
    match addresses.lookup l with
    | some line => .ok (.number (.int line))
    | none => .error (.undefined l)
  | .parameter function index =>
    match parameters.lookup (function, index) with
    | some r => .ok (.register r)
    | none => .error (.unallocated function index)
  | x => .ok x

def resolveAll (addresses : List (Label × Nat)) (parameters : List ((String × Int) × Register)) :
    List Operand → Except LinkError (List Operand)
  | [] => .ok []
  | x :: xs => do
    let y ← resolve addresses parameters x
    let ys ← resolveAll addresses parameters xs
    return y :: ys

def linkAll (addresses : List (Label × Nat)) (parameters : List ((String × Int) × Register)) :
    List Instruction → Except LinkError (List Instruction)
  | [] => .ok []
  | i :: is => do
    let operands ← resolveAll addresses parameters i.operands
    let js ← linkAll addresses parameters is
    return { i with operands } :: js

def link (a : Assembly) : Except LinkError Linked := do
  let addresses ← a.addresses
  let instructions ← linkAll addresses a.parameters a.instructions
  return ⟨instructions⟩

end Assembly

namespace Linked

def size (p : Linked) : Nat := p.instructions.length

def render (comments : Bool) (p : Linked) : String :=
  "\n".intercalate (p.instructions.map (·.render comments))

end Linked

end Chipwright
