import Chipwright.Resolved.Tree

/-!
# Occurrences

Where the names of a program stand and what each of them means, in the order of a walk from
the root. Likewise for slots.
-/
namespace Chipwright.Resolved

structure Occurrence where
  pos : Position
  binding : Binding

structure SlotOccurrence where
  pos : Position
  slot : Slot

def Expr.names : Expr → List Occurrence
  | literal _ _ => []
  | var pos v => [⟨pos, .var v⟩]
  | const pos c => [⟨pos, .const c⟩]
  | not _ operand => operand.names
  | binary _ left right => left.names ++ right.names

def Device.names : Device → List Occurrence
  | direct _ _ => []
  | named pos d => [⟨pos, .device d⟩]

def Device.occurrence (d : Device) : SlotOccurrence := ⟨d.pos, d.slot⟩

/-- The name of a variable where it is defined. -/
def Occurrence.definition (v : Variable) : Occurrence := ⟨v.pos, .var v⟩

mutual

def Stmt.names : Stmt → List Occurrence
  | .define _ v value => .definition v :: value.names
  | .assign pos v value => ⟨pos, .var v⟩ :: value.names
  | .block body => Stmt.namesAll body
  | .call pos f args => ⟨pos, .func f⟩ :: args.flatMap Expr.names
  | .loop _ body => Stmt.namesAll body
  | .ifThen _ condition thenBody => condition.names ++ Stmt.namesAll thenBody
  | .ifElse _ condition thenBody elseBody =>
    condition.names ++ Stmt.namesAll thenBody ++ Stmt.namesAll elseBody
  | .read _ device _ targetPos v => device.names ++ [⟨targetPos, .var v⟩]
  | .write _ value device _ => value.names ++ device.names
  | .yield _ => []

def Stmt.namesAll : List Stmt → List Occurrence
  | [] => []
  | s :: ss => s.names ++ Stmt.namesAll ss

end

mutual

def Stmt.slots : Stmt → List SlotOccurrence
  | .block body => Stmt.slotsAll body
  | .loop _ body => Stmt.slotsAll body
  | .ifThen _ _ thenBody => Stmt.slotsAll thenBody
  | .ifElse _ _ thenBody elseBody => Stmt.slotsAll thenBody ++ Stmt.slotsAll elseBody
  | .read _ device _ _ _ => [device.occurrence]
  | .write _ _ device _ => [device.occurrence]
  | _ => []

def Stmt.slotsAll : List Stmt → List SlotOccurrence
  | [] => []
  | s :: ss => s.slots ++ Stmt.slotsAll ss

end

def Item.names : Item → List Occurrence
  | nameSlot _ _ d => [⟨d.pos, .device d⟩]
  | const c => [⟨c.pos, .const c⟩]
  | func f =>
    ⟨f.head.pos, .func f.head⟩ :: f.params.map Occurrence.definition ++ Stmt.namesAll f.body
  | stmt s => s.names

def Item.slots : Item → List SlotOccurrence
  | nameSlot _ slotPos d => [⟨slotPos, d.slot⟩]
  | const _ => []
  | func f => Stmt.slotsAll f.body
  | stmt s => s.slots

/-- Every name of the program, definitions included. -/
def Program.names (p : Program) : List Occurrence := p.items.flatMap Item.names

/-- Every place that stands for a slot. -/
def Program.slots (p : Program) : List SlotOccurrence := p.items.flatMap Item.slots

end Chipwright.Resolved
