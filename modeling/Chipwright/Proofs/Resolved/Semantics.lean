import Chipwright.Proofs.Resolved.Variables
import Chipwright.Proofs.World
import Mathlib.Logic.Function.Basic

/-!
# What resolved programs mean

In a resolved program no variable is mistaken for another, so that the values of all of them can
be kept in one memory, whatever the blocks they belong to. Otherwise a resolved program runs as
the program does that it comes from.

A function is entered with its parameters and the variables of the top level, and leaves nothing
behind but the latter.
-/
namespace Chipwright

variable {V : Type}

/-- The values of variables, if they have one. -/
abbrev Memory (V : Type) := Variable → Option V

namespace Memory

def set (v : Variable) (a : V) (μ : Memory V) : Memory V := Function.update μ v (some a)

@[simp] theorem set_self (v : Variable) (a : V) (μ : Memory V) : μ.set v a v = some a :=
  Function.update_self ..

theorem set_of_ne {v v' : Variable} (h : v' ≠ v) (a : V) (μ : Memory V) : μ.set v a v' = μ v' :=
  Function.update_of_ne h ..

/-- The memory of a function that is entered, with the values of its parameters. -/
def entering (globals params : List Variable) (args : List V) (μ : Memory V) : Memory V :=
  fun v => if v ∈ globals then μ v else (params.zip args).lookup v

/-- The memory of a caller when a function has returned. -/
def returning (globals : List Variable) (callee μ : Memory V) : Memory V :=
  fun v => if v ∈ globals then callee v else μ v

variable {globals params : List Variable} {args : List V} {μ callee : Memory V} {v : Variable}

theorem entering_of_mem (h : v ∈ globals) : entering globals params args μ v = μ v := if_pos h

theorem entering_of_notMem (h : v ∉ globals) :
    entering globals params args μ v = (params.zip args).lookup v := if_neg h

theorem returning_of_mem (h : v ∈ globals) : returning globals callee μ v = callee v := if_pos h

theorem returning_of_notMem (h : v ∉ globals) : returning globals callee μ v = μ v := if_neg h

end Memory

namespace Resolved

def Expr.eval (w : World V) (μ : Memory V) : Expr → Option V
  | literal _ c => some (w.literal c)
  | var _ v => μ v
  | const _ c => some (w.literal c.value)
  | not _ operand => (operand.eval w μ).map w.not
  | binary op left right => do
    let a ← left.eval w μ
    let b ← right.eval w μ
    return w.binary op a b

def Expr.evalAll (w : World V) (μ : Memory V) : List Expr → Option (List V)
  | [] => some []
  | e :: es => do
    let a ← e.eval w μ
    let as ← evalAll w μ es
    return a :: as

/-- What executing statements comes to, from a memory and the events so far. -/
abbrev Execution (V : Type) := Memory V → List (Event V) → Outcome V (Memory V)

namespace Stmt

variable (w : World V) (p : Program) (again : List Stmt → Execution V)

mutual

/-- Executes a statement; `again` goes round a loop once more, and executes a function. -/
def exec : Stmt → Execution V
  | define _ v e, μ, t => .ofOption (e.eval w μ) fun a => .done (μ.set v a) t
  | assign _ v e, μ, t =>
    .ofOption (e.eval w μ) fun a => .ofOption (μ v) fun _ => .done (μ.set v a) t
  | block body, μ, t => execAll body μ t
  | call _ f args, μ, t =>
    .ofOption (p.function? f.name) fun g =>
    .ofOption (Expr.evalAll w μ args) fun as =>
      if as.length = g.params.length then
        (again g.body (μ.entering p.globals g.params as) t).bind fun callee t =>
          .done (callee.returning p.globals μ) t
      else .undefined
  | loop pos body, μ, t => (execAll body μ t).bind fun μ t => again [loop pos body] μ t
  | ifThen _ c thenBody, μ, t =>
    .ofOption (c.eval w μ) fun a => if w.isZero a then .done μ t else execAll thenBody μ t
  | ifElse _ c thenBody elseBody, μ, t =>
    .ofOption (c.eval w μ) fun a =>
      if w.isZero a then execAll elseBody μ t else execAll thenBody μ t
  | read _ device property _ v, μ, t =>
    let a := w.answer t device.slot property
    .ofOption (μ v) fun _ => .done (μ.set v a) (t ++ [.read device.slot property a])
  | write _ e device property, μ, t =>
    .ofOption (e.eval w μ) fun a => .done μ (t ++ [.write device.slot property a])
  | yield _, μ, t => .done μ (t ++ [.yield])

/-- Executes statements one after another. -/
def execAll : List Stmt → Execution V
  | [], μ, t => .done μ t
  | st :: sts, μ, t => (exec st μ t).bind fun μ t => execAll sts μ t

end

end Stmt

/-- Executes statements with a bound. -/
def Program.execWithin (w : World V) (p : Program) : Nat → List Stmt → Execution V
  | 0, _, _, t => .cut t
  | n + 1, sts, μ, t => Stmt.execAll w p (p.execWithin w n) sts μ t

/-- A run of the top-level code with a bound. -/
def Program.run (w : World V) (p : Program) (bound : Nat) : Outcome V Unit :=
  (p.execWithin w bound p.main (fun _ => none) []).observed

end Resolved

end Chipwright
