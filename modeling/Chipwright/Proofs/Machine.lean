import Chipwright.Chip.Section
import Chipwright.Proofs.World
import Mathlib.Logic.Function.Basic
import Mathlib.Logic.Relation

/-!
# The chip at work

A linked program is executed line by line. A line computes a value into a register, moves on
to another line, or meets the world; the program is over when its last line has been passed.

The chip itself knows nothing of functions. `track` keeps, beside a run, the calls that have
not returned yet: `jal` opens one, and a jump through a register closes the latest.
-/
namespace Chipwright

variable {V : Type}

structure Machine (V : Type) where
  /-- The line that is executed next. -/
  line : Nat
  registers : Register → V
  trace : List (Event V)

namespace Machine

/-- The chip before the first line. -/
def start (registers : Register → V) : Machine V := ⟨0, registers, []⟩

/-- Puts a value into a register and goes on. -/
def set (r : Register) (a : V) (m : Machine V) : Machine V :=
  { m with line := m.line + 1, registers := Function.update m.registers r a }

/-- Meets the world and goes on. -/
def perform (e : Event V) (m : Machine V) : Machine V :=
  { m with line := m.line + 1, trace := m.trace ++ [e] }

@[simp] theorem set_line (r : Register) (a : V) (m : Machine V) :
    (m.set r a).line = m.line + 1 := rfl

@[simp] theorem set_registers (r : Register) (a : V) (m : Machine V) :
    (m.set r a).registers = Function.update m.registers r a := rfl

@[simp] theorem set_trace (r : Register) (a : V) (m : Machine V) :
    (m.set r a).trace = m.trace := rfl

/-- Only the register that is set changes. -/
theorem eq_of_set_ne {r r' : Register} {a : V} {m : Machine V}
    (h : (m.set r a).registers r' ≠ m.registers r') : r' = r := by
  by_contra hne
  exact h (Function.update_of_ne hne _ _)

@[simp] theorem perform_line (e : Event V) (m : Machine V) :
    (m.perform e).line = m.line + 1 := rfl

@[simp] theorem perform_registers (e : Event V) (m : Machine V) :
    (m.perform e).registers = m.registers := rfl

@[simp] theorem perform_trace (e : Event V) (m : Machine V) :
    (m.perform e).trace = m.trace ++ [e] := rfl

end Machine

namespace Operand

/-- The value of an operand. Symbolic operands have none. -/
def value? (w : World V) (registers : Register → V) : Operand → Option V
  | register r => some (registers r)
  | number x => some (w.literal x)
  | _ => none

/-- The line that an operand leads to. -/
def line? (w : World V) (registers : Register → V) : Operand → Option Nat
  | register r => w.line? (registers r)
  | number (.int n) => n.toNat?
  | _ => none

@[simp] theorem line?_number (w : World V) (registers : Register → V) (n : Nat) :
    (number (.int n)).line? w registers = some n := rfl

end Operand

/-- The operator that an opcode computes. -/
def Opcode.operator? : Opcode → Option BinaryOp
  | add => some .add
  | sub => some .sub
  | mul => some .mul
  | div => some .div
  | seq => some .eq
  | sne => some .ne
  | slt => some .lt
  | sgt => some .gt
  | sle => some .le
  | sge => some .ge
  | and => some .and
  | or => some .or
  | _ => none

namespace Instruction

/-- What a line does that is no operator of two values. -/
def executePlain (w : World V) (opcode : Opcode) (operands : List Operand) (m : Machine V) :
    Option (Machine V) :=
  match opcode, operands with
  | .seqz, [.register r, x] => (x.value? w m.registers).map fun a => m.set r (w.not a)
  | .move, [.register r, x] => (x.value? w m.registers).map (m.set r ·)
  | .jump, [x] => (x.line? w m.registers).map fun line => { m with line }
  | .jumpAndLink, [x] =>
    (x.line? w m.registers).map fun line =>
      { m.set .ra (w.ofLine (m.line + 1)) with line }
  | .branchZero, [x, y] => do
    let a ← x.value? w m.registers
    let line ← y.line? w m.registers
    return { m with line := if w.isZero a then line else m.line + 1 }
  | .yield, [] => some (m.perform .yield)
  | .load, [.register r, .device slot, .name property] =>
    let a := w.answer m.trace slot property
    some { m.set r a with trace := m.trace ++ [.read slot property a] }
  | .store, [.device slot, .name property, x] =>
    (x.value? w m.registers).map fun a => m.perform (.write slot property a)
  | .nameDevice, [.name _, .device _] => some { m with line := m.line + 1 }
  | _, _ => none

/-- Executes a line. Only lines with the operands of their opcode, none of them symbolic, can
be executed. -/
def execute (w : World V) (i : Instruction) (m : Machine V) : Option (Machine V) :=
  match i.opcode.operator?, i.operands with
  | some op, [.register r, x, y] => do
    let a ← x.value? w m.registers
    let b ← y.value? w m.registers
    return m.set r (w.binary op a b)
  | some _, _ => none
  | none, operands => executePlain w i.opcode operands m

end Instruction

namespace Instruction

variable {w : World V} {m m' : Machine V}

theorem trace_of_executePlain {opcode : Opcode} {operands : List Operand}
    (h : executePlain w opcode operands m = some m') : m.trace <+: m'.trace := by
  unfold executePlain at h
  split at h
  case h_5 =>
    simp only [Option.bind_eq_bind, Option.bind_eq_some_iff, Option.pure_def,
      Option.some.injEq] at h
    obtain ⟨a, -, line, -, rfl⟩ := h
    exact List.prefix_rfl
  case h_6 | h_7 =>
    cases h
    exact List.prefix_append ..
  case h_8 =>
    obtain ⟨a, -, rfl⟩ := Option.map_eq_some_iff.1 h
    exact List.prefix_append ..
  case h_9 =>
    cases h
    exact List.prefix_rfl
  case h_10 => cases h
  all_goals
    obtain ⟨a, -, rfl⟩ := Option.map_eq_some_iff.1 h
    exact List.prefix_rfl

/-- What has happened stays so. -/
theorem trace_of_execute {i : Instruction} (h : i.execute w m = some m') :
    m.trace <+: m'.trace := by
  unfold execute at h
  split at h
  · simp only [Option.bind_eq_bind, Option.bind_eq_some_iff, Option.pure_def,
      Option.some.injEq] at h
    obtain ⟨a, -, b, -, rfl⟩ := h
    exact List.prefix_rfl
  · cases h
  · exact trace_of_executePlain h

end Instruction

namespace Linked

/-- Executes the next line. -/
def step? (w : World V) (p : Linked) (m : Machine V) : Option (Machine V) :=
  p.instructions[m.line]?.bind (·.execute w m)

/-- A number of lines executed one after another. -/
inductive Steps (w : World V) (p : Linked) : Nat → Machine V → Machine V → Prop
  | refl (m : Machine V) : Steps w p 0 m m
  | step {n : Nat} {m₁ m₂ m₃ : Machine V} :
    p.step? w m₁ = some m₂ → Steps w p n m₂ m₃ → Steps w p (n + 1) m₁ m₃

namespace Steps

variable {w : World V} {p : Linked} {n k : Nat} {m m₁ m₂ : Machine V}

theorem single (h : p.step? w m = some m₁) : Steps w p 1 m m₁ := .step h (.refl m₁)

theorem trans (h : Steps w p n m m₁) (h' : Steps w p k m₁ m₂) : Steps w p (n + k) m m₂ := by
  induction h with
  | refl m => simpa using h'
  | step hstep _ ih =>
    rw [Nat.succ_add]
    exact .step hstep (ih h')

theorem split (h : Steps w p (n + k) m m₂) : ∃ m₁, Steps w p n m m₁ ∧ Steps w p k m₁ m₂ := by
  induction n generalizing m with
  | zero => exact ⟨m, .refl m, by simpa using h⟩
  | succ n ih =>
    rw [Nat.succ_add] at h
    cases h with
    | step hstep h =>
      obtain ⟨m₁, h₁, h₂⟩ := ih h
      exact ⟨m₁, .step hstep h₁, h₂⟩

/-- What comes of a number of lines is determined. -/
theorem unique (h : Steps w p n m m₁) (h' : Steps w p n m m₂) : m₁ = m₂ := by
  induction h with
  | refl m =>
    cases h'
    rfl
  | step hstep _ ih =>
    cases h' with
    | step hstep' h' =>
      rw [hstep, Option.some.injEq] at hstep'
      subst hstep'
      exact ih h'

theorem trace (h : Steps w p n m m₁) : m.trace <+: m₁.trace := by
  induction h with
  | refl m => exact List.prefix_rfl
  | step hstep _ ih =>
    obtain ⟨i, -, hexecute⟩ := Option.bind_eq_some_iff.1 hstep
    exact (Instruction.trace_of_execute hexecute).trans ih

/-- Of two runs, the shorter one is the beginning of the other. -/
theorem trace_of_le (h : Steps w p n m m₁) (h' : Steps w p k m m₂) (hle : n ≤ k) :
    m₁.trace <+: m₂.trace := by
  obtain ⟨j, rfl⟩ := Nat.exists_eq_add_of_le hle
  obtain ⟨m₃, h₁, h₂⟩ := h'.split
  obtain rfl := h.unique h₁
  exact h₂.trace

/-- No line is executed where there is none. -/
theorem le_of_end (h : Steps w p n m m₁) (hend : m₁.line = p.size) (h' : Steps w p k m m₂) :
    k ≤ n := by
  by_contra hlt
  obtain ⟨j, rfl⟩ := Nat.exists_eq_add_of_lt (Nat.not_le.1 hlt)
  rw [Nat.add_assoc] at h'
  obtain ⟨m₃, h₁, h₂⟩ := h'.split
  obtain rfl := h.unique h₁
  cases h₂ with
  | step hstep _ =>
    have hnone : p.instructions[m₁.line]? = none := List.getElem?_eq_none (Nat.le_of_eq hend.symm)
    simp [step?, hnone] at hstep

end Steps

end Linked

/-! ## Open calls -/

/-- A call that has not returned. -/
structure OpenCall where
  /-- The line that the call went to. -/
  entry : Nat
  /-- The line after the call. -/
  back : Nat
  deriving DecidableEq

/-- The open calls after a line that has led from one state to another. -/
def Instruction.track (i : Instruction) (m m' : Machine V) (calls : List OpenCall) :
    List OpenCall :=
  match i.opcode, i.operands with
  | .jumpAndLink, _ => ⟨m'.line, m.line + 1⟩ :: calls
  | .jump, [.register _] => calls.tail
  | _, _ => calls

/-- Executes the next line and keeps the open calls. -/
def Linked.track (w : World V) (p : Linked) (s : List OpenCall × Machine V) :
    Option (List OpenCall × Machine V) := do
  let i ← p.instructions[s.2.line]?
  let m ← i.execute w s.2
  return (i.track s.2 m s.1, m)

/-- A state, with the open calls, that a program can come to from its first line. -/
def Linked.Reachable (w : World V) (p : Linked) (registers : Register → V)
    (calls : List OpenCall) (m : Machine V) : Prop :=
  Relation.ReflTransGen (fun s s' => p.track w s = some s') ([], .start registers) (calls, m)

/-- The state after a number of lines. -/
def Linked.trackFor (w : World V) (p : Linked) :
    Nat → List OpenCall × Machine V → Option (List OpenCall × Machine V)
  | 0, s => some s
  | n + 1, s => (p.track w s).bind (p.trackFor w n)

theorem Linked.reflTransGen_of_trackFor {w : World V} {p : Linked} {n : Nat}
    {s s' : List OpenCall × Machine V} (h : p.trackFor w n s = some s') :
    Relation.ReflTransGen (fun s s' => p.track w s = some s') s s' := by
  induction n generalizing s with
  | zero =>
    cases h
    exact .refl
  | succ n ih =>
    obtain ⟨s₁, hstep, h⟩ := Option.bind_eq_some_iff.1 h
    exact .head hstep (ih h)

end Chipwright
