import Chipwright.Lowering.Code
import Chipwright.RegisterPool
import Chipwright.Resolved.Tree

/-!
# Lowering of expressions

An operator gives one line. Its result goes to the given register, if there is one, and
else to a scratch register, which is free again once its reader has been lowered:

* `a + b` is `add d a b`, and so for the other operators;
* `!a` is `seqz d a`;
* literals, constants and variables give no line.
-/
namespace Chipwright

namespace Lowering

/-- Where the value of an expression is. -/
inductive Value
  | immediate (x : Literal)
  /-- In a register that belongs to something else. -/
  | home (r : Register)
  /-- In a register that its reader has to give back. -/
  | scratch (r : Register)
  deriving DecidableEq

def Value.operand : Value → Operand
  | immediate x => .number x
  | home r => .register r
  | scratch r => .register r

end Lowering

def BinaryOp.opcode : BinaryOp → Opcode
  | add => .add
  | sub => .sub
  | mul => .mul
  | div => .div
  | eq => .seq
  | ne => .sne
  | lt => .slt
  | gt => .sgt
  | le => .sle
  | ge => .sge
  | and => .and
  | or => .or

namespace Lowering

/-- Gives a scratch register back. -/
def Value.release (pool : RegisterPool) : Value → Except Failure RegisterPool
  | scratch r => pool.release r
  | _ => .ok pool

def Value.releaseAll (pool : RegisterPool) : List Value → Except Failure RegisterPool
  | [] => .ok pool
  | x :: xs => do
    let pool ← x.release pool
    releaseAll pool xs

/-- The registers of variables, the latest first. -/
abbrev Homes := List (Variable × Register)

def Homes.get (homes : Homes) (v : Variable) : Except Failure Register :=
  match homes.lookup v with
  | some r => .ok r
  | none => .error (.homeless v.name)

/-- What lowering an expression needs to know: the registers of variables, and the construct
that the expression belongs to. -/
structure ExprContext where
  file : String
  homes : Homes
  origin : Origin

namespace ExprContext

/-- The register for the result of an operator. -/
def result (ctx : ExprContext) (target : Option Register) (pool : RegisterPool) :
    Except Failure (Value × RegisterPool) :=
  match target with
  | some r => .ok (.home r, pool)
  | none => do
    let (r, pool) ← pool.allocate s!"{ctx.origin.text} (temporary)"
      (some (ctx.origin.pos.inFile ctx.file))
    return (.scratch r, pool)

/-- Lowers an expression. Only an operator at the top writes to the target. -/
def lower (ctx : ExprContext) : Resolved.Expr → Option Register → RegisterPool →
    Except Failure (Value × Code × RegisterPool)
  | .literal _ x, _, pool => .ok (.immediate x, [], pool)
  | .const _ c, _, pool => .ok (.immediate c.value, [], pool)
  | .var _ v, _, pool => do
    let r ← ctx.homes.get v
    return (.home r, [], pool)
  | .not _ operand, target, pool => do
    let (x, code, pool) ← ctx.lower operand none pool
    let pool ← x.release pool
    let (d, pool) ← ctx.result target pool
    return (d, code ++ [ctx.origin.line .seqz [d.operand, x.operand]], pool)
  | .binary op left right, target, pool => do
    let (x, code₁, pool) ← ctx.lower left none pool
    let (y, code₂, pool) ← ctx.lower right none pool
    let pool ← x.release pool
    let pool ← y.release pool
    let (d, pool) ← ctx.result target pool
    return (d, code₁ ++ code₂ ++ [ctx.origin.line op.opcode [d.operand, x.operand, y.operand]],
      pool)

/-- Lowers expressions one after another; the scratch registers of all of them stay taken. -/
def lowerAll (ctx : ExprContext) : List Resolved.Expr → RegisterPool →
    Except Failure (List Value × Code × RegisterPool)
  | [], pool => .ok ([], [], pool)
  | e :: es, pool => do
    let (x, code₁, pool) ← ctx.lower e none pool
    let (xs, code₂, pool) ← ctx.lowerAll es pool
    return (x :: xs, code₁ ++ code₂, pool)

/-- Lowers an expression so that its value ends up in a register. -/
def lowerInto (ctx : ExprContext) (e : Resolved.Expr) (target : Register)
    (pool : RegisterPool) : Except Failure (Code × RegisterPool) := do
  let (x, code, pool) ← ctx.lower e (some target) pool
  if x.operand = .register target then return (code, pool)
  let pool ← x.release pool
  return (code ++ [ctx.origin.line .move [.register target, x.operand]], pool)

end ExprContext

end Lowering

end Chipwright
