import Chipwright.Program.Tree

/-!
# What surrounds a run

A program only meets the rest of the world through its devices: it reads and writes their
properties and waits for the next tick. What numbers are, what the operators compute and how
devices answer is left open here; a `World` fixes it for one run, on any type of values.
-/
namespace Chipwright

/-- What can be seen of a run from the outside. -/
inductive Event (V : Type)
  /-- A property of a device was read and had the given value. -/
  | read (slot : Slot) (property : String) (value : V)
  | write (slot : Slot) (property : String) (value : V)
  /-- The program paused until the next tick. -/
  | yield
  deriving DecidableEq

/-- The meaning of literals and operators on a type of values, and the answers of devices.
Line numbers are values too, since the chip keeps them in registers. -/
structure World (V : Type) where
  literal : Literal → V
  binary : BinaryOp → V → V → V
  not : V → V
  /-- Conditionals take their second branch for such a value. -/
  isZero : V → Bool
  ofLine : Nat → V
  /-- The line that a jump to a value goes to. -/
  line? : V → Option Nat
  line?_ofLine : ∀ n, line? (ofLine n) = some n
  /-- The answer to a read, which may depend on all that has happened so far. -/
  answer : List (Event V) → Slot → String → V

/-- Whole numbers, with devices that answer every read with zero. -/
def World.whole : World Int where
  literal
    | .int n => n
    | .float _ => 0
    | .bool b => if b then 1 else 0
  binary
    | .add, x, y => x + y
    | .sub, x, y => x - y
    | .mul, x, y => x * y
    | .div, x, y => x / y
    | .eq, x, y => if x = y then 1 else 0
    | .ne, x, y => if x = y then 0 else 1
    | .lt, x, y => if x < y then 1 else 0
    | .gt, x, y => if y < x then 1 else 0
    | .le, x, y => if x ≤ y then 1 else 0
    | .ge, x, y => if y ≤ x then 1 else 0
    | .and, x, y => if x = 0 then 0 else if y = 0 then 0 else 1
    | .or, x, y => if x = 0 then if y = 0 then 0 else 1 else 1
  not x := if x = 0 then 1 else 0
  isZero x := x = 0
  ofLine n := n
  line? x := x.toNat?
  line?_ofLine _ := rfl
  answer _ _ _ := 0

/-- What a run comes to that may go round loops and enter functions a bounded number of
times. -/
inductive Outcome (V α : Type)
  | done (a : α) (trace : List (Event V))
  /-- The bound was reached after these events. -/
  | cut (trace : List (Event V))
  /-- The run used a variable that had no value yet. -/
  | undefined

namespace Outcome

variable {V α β : Type}

def bind (x : Outcome V α) (f : α → List (Event V) → Outcome V β) : Outcome V β :=
  match x with
  | done a trace => f a trace
  | cut trace => cut trace
  | undefined => undefined

/-- Goes on with a value if there is one. -/
def ofOption (x : Option α) (f : α → Outcome V β) : Outcome V β :=
  match x with
  | some a => f a
  | none => undefined

/-- The outcome without its result. -/
def observed (x : Outcome V α) : Outcome V Unit := x.bind fun _ trace => .done () trace

@[simp] theorem bind_done (a : α) (trace : List (Event V))
    (f : α → List (Event V) → Outcome V β) : (done a trace).bind f = f a trace := rfl

@[simp] theorem bind_cut (trace : List (Event V)) (f : α → List (Event V) → Outcome V β) :
    (cut trace).bind f = cut trace := rfl

@[simp] theorem bind_undefined (f : α → List (Event V) → Outcome V β) :
    (undefined : Outcome V α).bind f = undefined := rfl

@[simp] theorem ofOption_some (a : α) (f : α → Outcome V β) : ofOption (some a) f = f a := rfl

@[simp] theorem ofOption_none (f : α → Outcome V β) : ofOption none f = undefined := rfl

/-- The second outcome is the first one with a related result, unless that is undefined. -/
inductive Refines (R : α → β → Prop) : Outcome V α → Outcome V β → Prop
  | done {a : α} {b : β} (trace : List (Event V)) : R a b → Refines R (done a trace) (done b trace)
  | cut (trace : List (Event V)) : Refines R (cut trace) (cut trace)
  | undefined (y : Outcome V β) : Refines R undefined y

namespace Refines

variable {γ δ : Type} {R : α → β → Prop} {S : γ → δ → Prop}

theorem bind {x : Outcome V α} {y : Outcome V β} {f : α → List (Event V) → Outcome V γ}
    {g : β → List (Event V) → Outcome V δ} (h : Refines R x y)
    (hfg : ∀ a b trace, R a b → Refines S (f a trace) (g b trace)) :
    Refines S (x.bind f) (y.bind g) := by
  cases h with
  | done trace hab => exact hfg _ _ trace hab
  | cut trace => exact .cut trace
  | undefined y => exact .undefined _

theorem ofOption {x : Option α} {f : α → Outcome V γ} {y : Outcome V δ}
    (h : ∀ a, x = some a → Refines S (f a) y) : Refines S (ofOption x f) y := by
  cases x with
  | none => exact .undefined y
  | some a => exact h a rfl

theorem observed {x : Outcome V α} {y : Outcome V β} (h : Refines R x y) :
    x.observed = .undefined ∨ x.observed = y.observed := by
  cases h with
  | done trace hab => exact Or.inr rfl
  | cut trace => exact Or.inr rfl
  | undefined y => exact Or.inl rfl

end Refines

end Outcome

end Chipwright
