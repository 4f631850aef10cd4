import Chipwright.Proofs.Linking
import Chipwright.Proofs.Lowering.Expression
import Chipwright.Proofs.Machine

/-!
# Executing lowered lines

What the chip does at a line that linking has made of a line of code, one lemma for each form
of line. Together with the places of code these are all that is needed of the chip.
-/
namespace Chipwright

open Lowering (Line Origin Value)

variable {V : Type} {w : World V} {image : Image} {m : Machine V} {origin : Origin}

/-- What a value is, if the registers hold the given values. -/
def Lowering.Value.get (w : World V) (registers : Register → V) : Value → V
  | immediate c => w.literal c
  | home r => registers r
  | scratch r => registers r

@[simp] theorem Lowering.Value.value?_operand (registers : Register → V) (x : Value) :
    x.operand.value? w registers = some (x.get w registers) := by
  cases x <;> rfl

@[simp] theorem Lowering.Value.resolve_operand {addresses : List (Label × Nat)}
    {parameters : List ((String × Int) × Register)} (x : Value) :
    Assembly.resolve addresses parameters x.operand = .ok x.operand := by
  cases x <;> rfl

@[simp] theorem BinaryOp.operator?_opcode (op : BinaryOp) : op.opcode.operator? = some op := by
  cases op <;> rfl

theorem Assembly.resolveAll_cons {addresses : List (Label × Nat)}
    {parameters : List ((String × Int) × Register)} {x y : Operand} {xs ys : List Operand}
    (hx : resolve addresses parameters x = .ok y)
    (hxs : resolveAll addresses parameters xs = .ok ys) :
    resolveAll addresses parameters (x :: xs) = .ok (y :: ys) := by
  simp only [resolveAll, bind_eq_ok, pure_eq_ok]
  exact ⟨y, hx, ys, hxs, rfl⟩

namespace Image.HasLine

variable {r : Register} {x : Value} {label : Label} {n : Nat}

/-- At a line, the chip executes what linking has made of the line. -/
theorem step?_eq {l : Line} {operands : List Operand} (h : image.HasLine m.line l)
    (hoperands : Assembly.resolveAll image.addresses image.parameters l.operands = .ok operands) :
    image.linked.step? w m =
      Instruction.execute w { opcode := l.opcode, operands := operands } m := by
  obtain ⟨i, hi, hopcode, hi'⟩ := h
  rw [hoperands, Except.ok.injEq] at hi'
  rw [Linked.step?, hi, Option.bind_some, Instruction.execute, Instruction.execute, hopcode, hi']

theorem step?_binary {op : BinaryOp} {y : Value}
    (h : image.HasLine m.line ⟨op.opcode, [.register r, x.operand, y.operand], origin⟩) :
    image.linked.step? w m =
      some (m.set r (w.binary op (x.get w m.registers) (y.get w m.registers))) := by
  rw [h.step?_eq (Assembly.resolveAll_cons rfl (Assembly.resolveAll_cons x.resolve_operand
    (Assembly.resolveAll_cons y.resolve_operand rfl)))]
  simp [Instruction.execute]

attribute [local simp] Instruction.execute Opcode.operator? Instruction.executePlain

theorem step?_not (h : image.HasLine m.line ⟨.seqz, [.register r, x.operand], origin⟩) :
    image.linked.step? w m = some (m.set r (w.not (x.get w m.registers))) := by
  rw [h.step?_eq (Assembly.resolveAll_cons rfl (Assembly.resolveAll_cons x.resolve_operand rfl))]
  simp

theorem step?_move (h : image.HasLine m.line ⟨.move, [.register r, x.operand], origin⟩) :
    image.linked.step? w m = some (m.set r (x.get w m.registers)) := by
  rw [h.step?_eq (Assembly.resolveAll_cons rfl (Assembly.resolveAll_cons x.resolve_operand rfl))]
  simp

/-- A line that sets a parameter. -/
theorem step?_argument {f : String} {index : Int}
    (h : image.HasLine m.line ⟨.move, [.parameter f index, x.operand], origin⟩) :
    ∃ r, image.parameters.lookup (f, index) = some r ∧
      image.linked.step? w m = some (m.set r (x.get w m.registers)) := by
  cases hr : image.parameters.lookup (f, index) with
  | none =>
    obtain ⟨i, -, -, hi⟩ := h
    simp [Assembly.resolveAll, Assembly.resolve, hr] at hi
    cases hi
  | some r =>
    refine ⟨r, rfl, ?_⟩
    have hresolve : Assembly.resolve image.addresses image.parameters (.parameter f index) =
        .ok (.register r) := by simp [Assembly.resolve, hr]
    rw [h.step?_eq (Assembly.resolveAll_cons hresolve
      (Assembly.resolveAll_cons x.resolve_operand rfl))]
    simp

theorem resolve_label (h : image.addresses.lookup label = some n) :
    Assembly.resolve image.addresses image.parameters (.label label) =
      .ok (.number (.int n)) := by
  simp [Assembly.resolve, h]

theorem step?_jump (h : image.HasLine m.line ⟨.jump, [.label label], origin⟩)
    (hn : image.addresses.lookup label = some n) :
    image.linked.step? w m = some { m with line := n } := by
  rw [h.step?_eq (Assembly.resolveAll_cons (resolve_label hn) rfl)]
  simp

theorem step?_branch (h : image.HasLine m.line ⟨.branchZero, [x.operand, .label label], origin⟩)
    (hn : image.addresses.lookup label = some n) :
    image.linked.step? w m =
      some { m with line := if w.isZero (x.get w m.registers) then n else m.line + 1 } := by
  rw [h.step?_eq (Assembly.resolveAll_cons x.resolve_operand
    (Assembly.resolveAll_cons (resolve_label hn) rfl))]
  simp

theorem step?_call (h : image.HasLine m.line ⟨.jumpAndLink, [.label label], origin⟩)
    (hn : image.addresses.lookup label = some n) :
    image.linked.step? w m = some { m.set .ra (w.ofLine (m.line + 1)) with line := n } := by
  rw [h.step?_eq (Assembly.resolveAll_cons (resolve_label hn) rfl)]
  simp

theorem step?_return (h : image.HasLine m.line ⟨.jump, [.register r], origin⟩)
    (hn : m.registers r = w.ofLine n) : image.linked.step? w m = some { m with line := n } := by
  rw [h.step?_eq (Assembly.resolveAll_cons rfl rfl)]
  simp [Operand.line?, hn, w.line?_ofLine]

theorem step?_yield (h : image.HasLine m.line ⟨.yield, [], origin⟩) :
    image.linked.step? w m = some (m.perform .yield) := by
  rw [h.step?_eq rfl]
  rfl

theorem step?_load {slot : Slot} {property : String}
    (h : image.HasLine m.line ⟨.load, [.register r, .device slot, .name property], origin⟩) :
    image.linked.step? w m =
      some { m.set r (w.answer m.trace slot property) with
        trace := m.trace ++ [.read slot property (w.answer m.trace slot property)] } := by
  rw [h.step?_eq rfl]
  rfl

theorem step?_store {slot : Slot} {property : String}
    (h : image.HasLine m.line ⟨.store, [.device slot, .name property, x.operand], origin⟩) :
    image.linked.step? w m =
      some (m.perform (.write slot property (x.get w m.registers))) := by
  rw [h.step?_eq (Assembly.resolveAll_cons rfl (Assembly.resolveAll_cons rfl
    (Assembly.resolveAll_cons x.resolve_operand rfl)))]
  simp

theorem step?_nameDevice {name : String} {slot : Slot}
    (h : image.HasLine m.line ⟨.nameDevice, [.name name, .device slot], origin⟩) :
    image.linked.step? w m = some { m with line := m.line + 1 } := by
  rw [h.step?_eq rfl]
  rfl

end Image.HasLine

end Chipwright
