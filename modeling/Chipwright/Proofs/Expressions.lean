import Chipwright.Proofs.Lowering.Evaluation
import Chipwright.Proofs.Lowering.Walk

/-!
# Expressions leave no trace

The registers of two operands are given back before the result of their operator gets its own, so
that a result may take the place of what it is computed from. All the same the code of an
expression computes its value, and apart from the place of that value nothing is different
afterwards: neither the registers that something else relies on, nor what the generator knows
about them.

## Main statements

* `ExprContext.evaluates_and_restores_of_lower` — what an expression does to the machine that
  executes its code, and to the workspace that it is lowered in.
-/
namespace Chipwright.Lowering

namespace ExprContext

/-- The code of an expression computes its value, whatever the operators are. It changes the target
and registers that were free, and until its last line all live registers are as they were. It has
one line for each operator, operands before operators and the left one first. The loop over a stack
gives the same operand and code, and with that operand given back, the frames and the temporaries
are those of the beginning. -/
theorem evaluates_and_restores_of_lower {ctx : ExprContext} {e : Resolved.Expr}
    {target : Option Register} {ws : Workspace} {x : Value} {code : Code} {pool : RegisterPool}
    (hvars : ∀ v ∈ e.vars, ∀ r, ctx.homes.lookup v = some r → ws.IsHome r)
    (htarget : ∀ r, target = some r → ws.IsHome r)
    (h : ctx.lower e target ws.pool = .ok (x, code, pool)) :
    (∀ (V : Type) (w : World V) (m : Machine V), ∃ m' a,
      code.execute w m = some m' ∧ m'.trace = m.trace ∧
      e.eval w (ctx.homes.memory m.registers) = some a ∧
      x.operand.value? w m'.registers = some a ∧
      (∀ r, m'.registers r ≠ m.registers r → target = some r ∨ r ∉ ws.pool.live) ∧
      ∀ before : Code, before <+: code.dropLast → ∃ m₁, before.execute w m = some m₁ ∧
        ∀ r ∈ ws.pool.live, m₁.registers r = m.registers r) ∧
    (∃ lines : List Line, code = lines.map .line ∧ lines.map (·.opcode) = e.opcodes) ∧
    ∃ ws' ws'', ctx.walk e target ws = .ok (x.operand, code, ws') ∧ ws'.pool = pool ∧
      ws'.give x.operand = .ok ws'' ∧ x.release pool = .ok ws''.pool ∧
      ws''.pool.frames = ws.pool.frames ∧ ws''.temporaries = ws.temporaries := by
  refine ⟨fun V w m => ?_, opcodes_of_lower h, walk_of_lower h hvars htarget⟩
  have hfinds : ctx.Finds (ctx.homes.memory m.registers) ws.pool m e.vars := by
    intro v hv r hr
    refine ⟨(hvars v hv r hr).1, fun a ha => ?_⟩
    rw [Homes.memory, hr] at ha
    exact Option.some.inj ha
  obtain ⟨a, ha⟩ := exists_eval_of_lower (w := w) m.registers h
  obtain ⟨m', hm', heval, hx⟩ := execute_lower h hfinds ha
  refine ⟨m', a, hm', heval.trace, ha, by rw [Value.value?_operand, hx], fun r hr => ?_,
    fun before hbefore => execute_before_last h hbefore⟩
  exact (heval.changed r hr).imp_right fun hfree => hfree.1

/-! ### An expression that reads its target -/

def counterRegister : Register := ⟨⟨0, Nat.succ_pos 17⟩⟩

def heldRegister : Register := ⟨⟨1, Nat.one_lt_succ_succ 16⟩⟩

def counter : Variable := ⟨0, "counter", .first, 0, none⟩

/-- The value of an assignment to `counter` that reads it three times, also in the last operand. -/
def countdown : Resolved.Expr :=
  .binary .mul (.binary .sub (.var .first counter) (.literal .first (.int 1)))
    (.binary .add (.var .first counter) (.not .first (.var .first counter)))

def countdownContext : ExprContext where
  file := "countdown"
  homes := [(counter, counterRegister)]
  origin := ⟨"assignment to 'counter'", .first⟩

/-- The register of `counter` is in use, and another one holds the result of an operator. -/
def countdownPool : RegisterPool where
  size := 16
  reserved := [.sp]
  innermost := [counterRegister, heldRegister]
  outer := []
  used := [heldRegister, counterRegister]

theorem live_countdownPool : ∀ r ∈ ({heldRegister} : Finset Register), r ∈ countdownPool.live := by
  simp [countdownPool, RegisterPool.live, RegisterPool.frames]

def countdownWorkspace : Workspace := ⟨countdownPool, {heldRegister}, live_countdownPool⟩

theorem isHome_countdownWorkspace : countdownWorkspace.IsHome counterRegister := by
  constructor
  · simp [countdownWorkspace, countdownPool, RegisterPool.live, RegisterPool.frames]
  · exact fun h => absurd (Finset.mem_singleton.1 h) (by decide)

theorem isHome_of_lookup_countdown {v : Variable} (hv : v ∈ countdown.vars) {r : Register}
    (hr : countdownContext.homes.lookup v = some r) : countdownWorkspace.IsHome r := by
  obtain rfl : v = counter := by simpa [countdown, Resolved.Expr.vars] using hv
  obtain rfl : counterRegister = r := Option.some.inj hr
  exact isHome_countdownWorkspace

/-- The assignment is computed from the old value, one of its results takes the place of an operand,
and the temporary of another expression stays what it is. -/
theorem evaluates_and_restores_of_lower_countdown :
    ∃ code pool, countdownContext.lower countdown (some counterRegister) countdownWorkspace.pool =
        .ok (.home counterRegister, code, pool) ∧
      (∃ m', code.execute World.whole (.start fun _ => 7) = some m' ∧
        m'.registers counterRegister = 42 ∧ m'.registers heldRegister = 7) ∧
      (∃ lines : List Line, code = lines.map .line ∧
        lines.map (·.opcode) = [.sub, .seqz, .add, .mul]) ∧
      ∃ ws' ws'', countdownContext.walk countdown (some counterRegister) countdownWorkspace =
          .ok (.register counterRegister, code, ws') ∧
        ws'.give (.register counterRegister) = .ok ws'' ∧
        ws''.pool.frames = [[counterRegister, heldRegister]] ∧
        ws''.temporaries = {heldRegister} := by
  have htarget : ∀ r, some counterRegister = some r → countdownWorkspace.IsHome r := by
    rintro r ⟨⟩
    exact isHome_countdownWorkspace
  have hlower : countdownContext.lower countdown (some counterRegister) countdownWorkspace.pool =
      .ok (.home counterRegister, _, _) := rfl
  obtain ⟨hmachine, hlines, ws', ws'', hwalk, -, hgive, -, hframes, htemporaries⟩ :=
    evaluates_and_restores_of_lower (fun v hv r hr => isHome_of_lookup_countdown hv hr) htarget
      hlower
  obtain ⟨m', a, hm', -, ha, hx, hchanged, -⟩ := hmachine Int World.whole (.start fun _ => 7)
  refine ⟨_, _, hlower, ⟨m', hm', ?_, ?_⟩, hlines, ws', ws'', hwalk, hgive, hframes, htemporaries⟩
  · have hvalue : some (42 : Int) = some a := ha
    exact Option.some.inj (hx.trans hvalue.symm)
  · by_contra hne
    rcases hchanged heldRegister hne with htarget | hfree
    · cases htarget
    · exact hfree (live_countdownPool _ (Finset.mem_singleton_self _))

end ExprContext

end Chipwright.Lowering
