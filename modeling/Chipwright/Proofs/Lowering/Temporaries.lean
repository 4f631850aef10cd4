import Chipwright.Proofs.Lowering.Statement

/-!
# Registers that are handed out

A pool keeps a list of all registers that it has handed out, the latest first. What lowering
adds to this list was free when the lowering began. So a temporary is neither the register of a
variable that is live, nor the one of the variable that the statement itself defines.
-/
namespace Chipwright

namespace Lowering

/-! ### Values that are brought to a variable -/

/-- Code that ends with the value of an expression in the register of a variable. -/
inductive Delivers (v : Variable) (r : Register) : Resolved.Expr → Code → Prop
  /-- The value is moved there. -/
  | move (e : Resolved.Expr) (code : Code) (origin : Origin) (x : Value) :
    x.operand ≠ .register r → Delivers v r e (code ++ [origin.line .move [.register r, x.operand]])
  | not (pos : Position) (e : Resolved.Expr) (code : Code) (origin : Origin) (x : Value) :
    Delivers v r (.not pos e) (code ++ [origin.line .seqz [.register r, x.operand]])
  | binary (op : BinaryOp) (left right : Resolved.Expr) (code : Code) (origin : Origin)
      (x y : Value) :
    Delivers v r (.binary op left right)
      (code ++ [origin.line op.opcode [.register r, x.operand, y.operand]])
  /-- The value of the variable itself is there from the start. -/
  | itself (pos : Position) : Delivers v r (.var pos v) []

/-- A value is moved to a variable unless it is the variable itself, or an operator that writes
its result there. -/
theorem ExprContext.delivers_of_lowerInto {ctx : ExprContext} {pool pool' : RegisterPool}
    {e : Resolved.Expr} {v : Variable} {r : Register} {code : Code}
    (h : ctx.lowerInto e r pool = .ok (code, pool'))
    (hvars : ∀ w ∈ e.vars, ctx.homes.lookup w = some r → w = v) : Delivers v r e code := by
  obtain ⟨x, code₁, hx, ⟨hoperand, rfl⟩ | ⟨hoperand, rfl⟩⟩ := lowerInto_eq_ok h
  · cases lowers_of_lower hx with
    | literal | const => cases hoperand
    | var _ hhome =>
      cases hoperand
      obtain rfl := hvars _ (List.mem_singleton.2 rfl) hhome
      exact .itself _
    | not y =>
      rw [hoperand]
      exact .not _ _ _ ctx.origin y
    | binary y z =>
      rw [hoperand]
      exact .binary _ _ _ _ ctx.origin y z
  · exact .move e code₁ ctx.origin x hoperand

/-! ### Statements -/

namespace Context

variable {ctx : Context}

/-- A statement that defines a variable is given a register for it first. All other registers
that it is given, those for the variables inside it included, are neither that one nor live
before the statement. -/
theorem handsOut_of_stmt {st : Resolved.Stmt} {s₀ s₁ : State} {code : Code}
    (h : ctx.stmt st s₀ = .ok code s₁) :
    ∃ temporaries own, own.map some = (st.defines.map fun v => s₁.homes.lookup v) ∧
      s₁.pool.used = temporaries ++ own ++ s₀.pool.used ∧
      ∀ r ∈ temporaries, r ∉ own ∧ r ∉ s₀.pool.live := by
  obtain ⟨own, htakes⟩ := (effect_of_stmt st h).takes
  obtain ⟨handed, hused, hfree⟩ := htakes.handed
  cases st with
  | define pos v e =>
    cases lowers_of_stmt h with
    | define r hallocate hlower =>
      have htakes₁ := RegisterPool.takes_of_allocate hallocate
      obtain ⟨handed, hused, hfree⟩ := (ExprContext.takes_of_lowerInto hlower).handed
      obtain ⟨-, rfl⟩ := RegisterPool.allocate_eq_ok.1 hallocate
      refine ⟨handed, [r], by simp [Resolved.Stmt.defines], by simp [hused], fun r' hr' => ?_⟩
      have hlive := (hfree r' hr').1
      rw [htakes₁.mem_live, not_or] at hlive
      exact hlive.symm
  | _ => exact ⟨handed, [], rfl, by simpa using hused, fun r hr => ⟨by simp, (hfree r hr).1⟩⟩

end Context

end Lowering

end Chipwright
