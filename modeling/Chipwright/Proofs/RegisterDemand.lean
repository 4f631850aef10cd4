import Chipwright.Proofs.Expressions

/-!
# Expressions and the registers that are free

An expression exhausts the registers exactly if fewer of them are free than its shape demands, and
else it takes as many at once as it demands. Where the free registers lie makes no difference.

## Main statements

* `ExprContext.exhausts_iff_lt_demand`: when the registers are exhausted, and how many are taken
-/
namespace Chipwright.Lowering

namespace ExprContext

open Workspace (Peaks)

/-- An expression whose variables have registers is lowered exactly if as many registers are free as
it demands. If not, there is no register left for one of its results, and the loop over a stack
fails for that reason too. If it is lowered, the loop goes through workspaces in which at most as
many temporaries as it demands are held beside those that were there before, and in one of them just
as many. A chain that leans to the left demands at most one. -/
theorem exhausts_iff_lt_demand {ctx : ExprContext} {e : Resolved.Expr} (target : Option Register)
    {ws : Workspace}
    (hvars : ∀ v ∈ e.vars, ∃ r, ctx.homes.lookup v = some r ∧ ws.IsHome r) :
    (ctx.lower e target ws.pool = .error (ctx.exhaustion ws.pool) ↔
      ws.pool.freeCount < e.demandFor target) ∧
    (ctx.walk e target ws = .error (ctx.exhaustion ws.pool) ↔
      ws.pool.freeCount < e.demandFor target) ∧
    ((∃ x code pool, ctx.lower e target ws.pool = .ok (x, code, pool)) ↔
      e.demandFor target ≤ ws.pool.freeCount) ∧
    (∀ x code pool, ctx.lower e target ws.pool = .ok (x, code, pool) → ∃ ws' wss,
      ctx.walk e target ws = .ok (x.operand, code, ws') ∧ ws'.pool = pool ∧
      ctx.Passes ⟨[.visit e target], [], [], ws⟩ wss ⟨[], [x.operand], code, ws'⟩ ∧
      Peaks (wss ++ [ws']) (ws.temporaries.card + e.demandFor target)) ∧
    (e.IsChain → e.demand ≤ 1) := by
  have hhoused : ctx.Housed e := fun v hv => (hvars v hv).imp fun _ hr => hr.1
  have hhome : ∀ v ∈ e.vars, ∀ r, ctx.homes.lookup v = some r → ws.IsHome r := by
    intro v hv r hr
    obtain ⟨r', hr', hhome⟩ := hvars v hv
    rw [hr] at hr'
    cases hr'
    exact hhome
  have henough := lower_of_demand_le e target ws.pool hhoused
  have htooFew := lower_of_lt_demand e target ws.pool hhoused
  refine ⟨⟨fun h => ?_, htooFew⟩, ⟨fun h => ?_, fun hlt => ?_⟩, ⟨?_, henough⟩,
    fun x code pool h => ?_, Resolved.Expr.demand_le_one_of_isChain⟩
  · by_contra hle
    obtain ⟨x, code, pool, hok⟩ := henough (Nat.le_of_not_lt hle)
    cases hok.symm.trans h
  · by_contra hle
    obtain ⟨x, code, pool, hok⟩ := henough (Nat.le_of_not_lt hle)
    obtain ⟨ws', -, -, hwalk⟩ := walkFrom_of_lower hok hhome
    rw [walk, hwalk, walkFrom] at h
    cases h
  · exact walkFrom_of_lower_eq_error (htooFew hlt) hhome [] [] []
  · rintro ⟨x, code, pool, h⟩
    by_contra hlt
    cases h.symm.trans (htooFew (Nat.lt_of_not_le hlt))
  · obtain ⟨ws', wss, hpool, hvisits⟩ := visits_of_lower h hhome
    have hpasses : ctx.Passes ⟨[.visit e target], [], [], ws⟩ wss ⟨[], [x.operand], code, ws'⟩ := by
      simpa using hvisits.passes [] [] []
    refine ⟨ws', wss, ?_, hpool, hpasses, hvisits.peaks⟩
    rw [walk, hpasses.walkFrom_eq, walkFrom]

/-! ### One register short -/

/-- The pool of `countdown`, with one free register only. -/
def shortPool : RegisterPool := { countdownPool with size := 3 }

def shortWorkspace : Workspace := ⟨shortPool, {heldRegister}, live_countdownPool⟩

theorem isHome_shortWorkspace : shortWorkspace.IsHome counterRegister := isHome_countdownWorkspace

/-- `countdown` has operators on both sides, so it needs two registers beside the one that is held
already. -/
theorem exhausts_iff_lt_demand_countdown :
    (∀ v ∈ countdown.vars, ∃ r, countdownContext.homes.lookup v = some r ∧
      shortWorkspace.IsHome r ∧ countdownWorkspace.IsHome r) ∧
    countdownContext.lower countdown none shortPool =
      .error (countdownContext.exhaustion shortPool) ∧
    countdownContext.walk countdown none shortWorkspace =
      .error (countdownContext.exhaustion shortPool) ∧
    ∃ x code pool wss ws', countdownContext.lower countdown none countdownPool =
        .ok (x, code, pool) ∧
      countdownContext.Passes ⟨[.visit countdown none], [], [], countdownWorkspace⟩ wss
        ⟨[], [x.operand], code, ws'⟩ ∧ Peaks (wss ++ [ws']) 3 := by
  have hhomes : ∀ v ∈ countdown.vars, ∃ r, countdownContext.homes.lookup v = some r ∧
      shortWorkspace.IsHome r ∧ countdownWorkspace.IsHome r := by
    intro v hv
    obtain rfl : v = counter := by simpa [countdown, Resolved.Expr.vars] using hv
    exact ⟨counterRegister, rfl, isHome_shortWorkspace, isHome_countdownWorkspace⟩
  obtain ⟨hshort, hwalk, -⟩ := exhausts_iff_lt_demand none
    fun v hv => (hhomes v hv).imp fun _ h => ⟨h.1, h.2.1⟩
  obtain ⟨-, -, hroomy, hpeak, -⟩ := exhausts_iff_lt_demand none
    fun v hv => (hhomes v hv).imp fun _ h => ⟨h.1, h.2.2⟩
  obtain ⟨x, code, pool, h⟩ := hroomy.2 (by decide)
  obtain ⟨ws', wss, -, -, hpasses, hpeaks⟩ := hpeak x code pool h
  exact ⟨hhomes, hshort.2 (by decide), hwalk.2 (by decide), x, code, pool, wss, ws', h, hpasses,
    hpeaks⟩

end ExprContext

end Chipwright.Lowering
