import Chipwright.Proofs.Lowering.Expression
import Mathlib.Data.Finset.Card

/-!
# How many registers an expression needs

While the right operand of an operator is computed, the result of the left one waits in a register,
unless it is a leaf. Both are given back before the operator takes a register of its own. So the
shape of an expression says how many registers it needs at once, and it is lowered exactly if so
many are free; which ones these are makes no difference.
-/
namespace Chipwright

namespace Resolved.Expr

/-- The registers that hold the result of an expression until it is read. -/
def held : Expr → Nat
  | literal _ _ | var _ _ | const _ _ => 0
  | not _ _ | binary _ _ _ => 1

/-- The registers that an expression needs at once. -/
def demand : Expr → Nat
  | literal _ _ | var _ _ | const _ _ => 0
  | not _ operand => max operand.demand 1
  | binary _ left right => max (max left.demand (left.held + right.demand)) 1

/-- The registers that it needs if there is a place for its result. -/
def demandInto : Expr → Nat
  | literal _ _ | var _ _ | const _ _ => 0
  | not _ operand => operand.demand
  | binary _ left right => max left.demand (left.held + right.demand)

/-- The registers that it needs, with a place for its result or without one. -/
def demandFor (e : Expr) : Option Register → Nat
  | none => e.demand
  | some _ => e.demandInto

/-- The register for a result that has no place. -/
def ownRegister : Option Register → Nat
  | none => 1
  | some _ => 0

theorem demandFor_not (pos : Position) (e : Expr) (target : Option Register) :
    (not pos e).demandFor target = max e.demand (ownRegister target) := by
  cases target with
  | none => rfl
  | some r => exact (Nat.max_zero _).symm

theorem demandFor_binary (op : BinaryOp) (left right : Expr) (target : Option Register) :
    (binary op left right).demandFor target =
      max (max left.demand (left.held + right.demand)) (ownRegister target) := by
  cases target with
  | none => rfl
  | some r => exact (Nat.max_zero _).symm

/-- A chain of operators that leans to the left: all right operands are leaves. -/
def IsChain : Expr → Prop
  | literal _ _ | var _ _ | const _ _ => True
  | not _ operand => operand.IsChain
  | binary _ left right => left.IsChain ∧ right.held = 0

theorem demand_eq_zero_of_held {e : Expr} (h : e.held = 0) : e.demand = 0 := by
  cases e <;> simp_all [held, demand]

theorem held_le_one (e : Expr) : e.held ≤ 1 := by
  cases e <;> simp [held]

theorem demand_le_one_of_isChain {e : Expr} (h : e.IsChain) : e.demand ≤ 1 := by
  induction e with
  | literal | var | const => simp [demand]
  | not pos operand ih => simpa [demand] using ih h
  | binary op left right ihl _ =>
    have hl := ihl h.1
    have hr := demand_eq_zero_of_held h.2
    have hheld := left.held_le_one
    simp only [demand]
    omega

end Resolved.Expr

namespace RegisterPool

/-- The number of registers that can be taken. -/
def freeCount (p : RegisterPool) : Nat := (Register.general p.size).countP (· ∉ p.live)

theorem nodup_general (n : Nat) : (Register.general n).Nodup := by
  have hall : Register.all.Nodup := by decide
  exact (hall.sublist (List.take_sublist ..)).sublist (List.take_sublist ..)

theorem freeCount_eq_card (p : RegisterPool) :
    p.freeCount = ((Register.general p.size).toFinset.filter (· ∉ p.live)).card := by
  rw [freeCount, List.countP_eq_length_filter,
    ← List.toFinset_card_of_nodup ((nodup_general _).filter _)]
  congr 1
  ext r
  simp

/-- Only the number of registers that are taken counts. -/
theorem Takes.freeCount {p q : RegisterPool} {rs : List Register} (h : p.Takes rs q) :
    q.freeCount + rs.length = p.freeCount := by
  rw [freeCount_eq_card, freeCount_eq_card, ← List.toFinset_card_of_nodup h.nodup, h.size]
  have hsub : rs.toFinset ⊆ (Register.general p.size).toFinset.filter (· ∉ p.live) := by
    intro r hr
    rw [List.mem_toFinset] at hr
    simp [h.general r hr, h.free r hr]
  have hsdiff : (Register.general p.size).toFinset.filter (· ∉ q.live) =
      (Register.general p.size).toFinset.filter (· ∉ p.live) \ rs.toFinset := by
    ext r
    simp [h.mem_live]
    tauto
  rw [hsdiff, Finset.card_sdiff_add_card_eq_card hsub]

theorem Takes.freeCount_nil {p q : RegisterPool} (h : p.Takes [] q) : q.freeCount = p.freeCount :=
  h.freeCount

theorem free?_eq_none_iff {p : RegisterPool} : p.free? = none ↔ p.freeCount = 0 := by
  simp [free?, freeCount, List.find?_eq_none, List.countP_eq_zero]

end RegisterPool

namespace Lowering

/-- A value that has been taken first is given back. -/
theorem Value.exists_release_append {p q : RegisterPool} {x : Value} {rs : List Register}
    (h : p.Takes (x.taken ++ rs) q) : ∃ t, x.release q = .ok t ∧ p.Takes rs t := by
  cases x with
  | immediate c => exact ⟨q, rfl, h⟩
  | home r => exact ⟨q, rfl, h⟩
  | scratch r =>
    have hr : r ∈ q.innermost := by simp [h.innermost, taken]
    have hrelease : (scratch r).release q = .ok { q with innermost := q.innermost.erase r } :=
      if_pos (List.contains_iff_mem.2 hr)
    have htakes : p.Takes ([] ++ r :: rs) q := h
    exact ⟨_, hrelease, htakes.release hrelease⟩

namespace ExprContext

variable {ctx : ExprContext} {e : Resolved.Expr} {target : Option Register}
  {pool pool' : RegisterPool} {x : Value} {code : Code}

/-- No register is left for the result of an operator. -/
def exhaustion (ctx : ExprContext) (pool : RegisterPool) : Failure :=
  .diagnostic {
    cause := .outOfRegisters s!"{ctx.origin.text} (temporary)" pool.size
    location := some (ctx.origin.pos.inFile ctx.file) }

theorem exhaustion_eq {rs : List Register} (h : pool.Takes rs pool') :
    ctx.exhaustion pool' = ctx.exhaustion pool := by
  rw [exhaustion, exhaustion, h.size]

/-- A result that has no place needs a register. -/
theorem result_of_le (h : Resolved.Expr.ownRegister target ≤ pool.freeCount) :
    ∃ x pool', ctx.result target pool = .ok (x, pool') := by
  cases target with
  | some r => exact ⟨.home r, pool, rfl⟩
  | none =>
    have hfree : pool.free? ≠ none := by
      intro hnone
      have hzero := RegisterPool.free?_eq_none_iff.1 hnone
      rw [hzero] at h
      cases h
    obtain ⟨r, hr⟩ := Option.ne_none_iff_exists'.1 hfree
    exact ⟨.scratch r, _, by
      simp only [result, RegisterPool.allocate, RegisterPool.allocate?, hr]; rfl⟩

theorem result_of_lt (h : pool.freeCount < Resolved.Expr.ownRegister target) :
    ctx.result target pool = .error (ctx.exhaustion pool) := by
  cases target with
  | some r => cases h
  | none =>
    have hfree := RegisterPool.free?_eq_none_iff.2 (Nat.lt_one_iff.1 h)
    simp only [result, RegisterPool.allocate, RegisterPool.allocate?, hfree]
    rfl

/-- The result of an operator is in a register of its own. -/
theorem length_taken_of_lower (h : ctx.lower e none pool = .ok (x, code, pool')) :
    x.taken.length = e.held := by
  cases lowers_of_lower h with
  | literal | const | var => rfl
  | not _ _ _ _ hresult | binary _ _ _ _ _ _ _ hresult =>
    obtain ⟨r, hr, -⟩ | ⟨r, -, rfl, -⟩ := result_eq_ok hresult
    · cases hr
    · rfl

/-- While a value waits, so many registers are free. -/
theorem freeCount_of_lower (h : ctx.lower e none pool = .ok (x, code, pool')) :
    pool'.freeCount + e.held = pool.freeCount := by
  rw [← length_taken_of_lower h]
  exact (takes_of_lower h).freeCount

/-- Every variable of the expression has a register. -/
def Housed (ctx : ExprContext) (e : Resolved.Expr) : Prop :=
  ∀ v ∈ e.vars, ∃ r, ctx.homes.lookup v = some r

theorem Housed.left {op : BinaryOp} {left right : Resolved.Expr}
    (h : ctx.Housed (.binary op left right)) : ctx.Housed left :=
  fun v hv => h v (List.mem_append_left _ hv)

theorem Housed.right {op : BinaryOp} {left right : Resolved.Expr}
    (h : ctx.Housed (.binary op left right)) : ctx.Housed right :=
  fun v hv => h v (List.mem_append_right _ hv)

/-- Once the operand has been computed, only the result needs a register. -/
theorem lower_not_eq (pos : Position) (h : ctx.lower e none pool = .ok (x, code, pool')) :
    ∃ pool₁, pool.Takes [] pool₁ ∧ ∀ target, ctx.lower (.not pos e) target pool =
      (ctx.result target pool₁).map fun s =>
        (s.1, code ++ [ctx.origin.line .seqz [s.1.operand, x.operand]], s.2) := by
  have htakes : pool.Takes (x.taken ++ []) pool' := by simpa using takes_of_lower h
  obtain ⟨pool₁, hrelease, htakes₁⟩ := Value.exists_release_append htakes
  refine ⟨pool₁, htakes₁, fun target => ?_⟩
  simp only [lower, h, bind, Except.bind, hrelease]
  cases ctx.result target pool₁ <;> rfl

theorem lower_binary_eq (op : BinaryOp) {left right : Resolved.Expr} {y : Value}
    {code₁ code₂ : Code} {pool₁ pool₂ : RegisterPool}
    (hx : ctx.lower left none pool = .ok (x, code₁, pool₁))
    (hy : ctx.lower right none pool₁ = .ok (y, code₂, pool₂)) :
    ∃ pool₃, pool.Takes [] pool₃ ∧ ∀ target, ctx.lower (.binary op left right) target pool =
      (ctx.result target pool₃).map fun s => (s.1, code₁ ++ code₂ ++
        [ctx.origin.line op.opcode [s.1.operand, x.operand, y.operand]], s.2) := by
  have htakes := (takes_of_lower hx).trans (takes_of_lower hy)
  obtain ⟨pool₃, hrelease₁, htakes₁⟩ := Value.exists_release_append htakes
  have htakes₁ : pool.Takes (y.taken ++ []) pool₃ := by simpa using htakes₁
  obtain ⟨pool₄, hrelease₂, htakes₂⟩ := Value.exists_release_append htakes₁
  refine ⟨pool₄, htakes₂, fun target => ?_⟩
  simp only [lower, hx, hy, bind, Except.bind, hrelease₁, hrelease₂]
  cases ctx.result target pool₄ <;> rfl

/-- An expression is lowered if enough registers are free. -/
theorem lower_of_demand_le (e : Resolved.Expr) (target : Option Register) (pool : RegisterPool)
    (hhoused : ctx.Housed e) (h : e.demandFor target ≤ pool.freeCount) :
    ∃ x code pool', ctx.lower e target pool = .ok (x, code, pool') := by
  induction e generalizing target pool with
  | literal pos c => exact ⟨_, _, _, rfl⟩
  | const pos c => exact ⟨_, _, _, rfl⟩
  | var pos v =>
    obtain ⟨r, hr⟩ := hhoused v (List.mem_singleton_self v)
    exact ⟨.home r, [], pool, by simp only [lower, Homes.get, hr]; rfl⟩
  | not pos e ih =>
    rw [Resolved.Expr.demandFor_not, Nat.max_le] at h
    obtain ⟨x, code, pool₁, hx⟩ := ih none pool hhoused h.1
    obtain ⟨pool₂, htakes, hlower⟩ := lower_not_eq pos hx
    have hresult : ∃ d pool', ctx.result target pool₂ = .ok (d, pool') :=
      result_of_le (htakes.freeCount_nil ▸ h.2)
    obtain ⟨d, pool', hd⟩ := hresult
    exact ⟨d, _, pool', by rw [hlower, hd]; rfl⟩
  | binary op left right ihl ihr =>
    rw [Resolved.Expr.demandFor_binary, Nat.max_le, Nat.max_le] at h
    obtain ⟨⟨hleft, hright⟩, hown⟩ := h
    obtain ⟨x, code₁, pool₁, hx⟩ := ihl none pool hhoused.left hleft
    have hfree := freeCount_of_lower hx
    have hright : right.demandFor none ≤ pool₁.freeCount := by
      change right.demand ≤ pool₁.freeCount
      omega
    obtain ⟨y, code₂, pool₂, hy⟩ := ihr none pool₁ hhoused.right hright
    obtain ⟨pool₃, htakes, hlower⟩ := lower_binary_eq op hx hy
    have hresult : ∃ d pool', ctx.result target pool₃ = .ok (d, pool') :=
      result_of_le (htakes.freeCount_nil ▸ hown)
    obtain ⟨d, pool', hd⟩ := hresult
    exact ⟨d, _, pool', by rw [hlower, hd]; rfl⟩

/-- If too few are free, that is the fault. -/
theorem lower_of_lt_demand (e : Resolved.Expr) (target : Option Register) (pool : RegisterPool)
    (hhoused : ctx.Housed e) (h : pool.freeCount < e.demandFor target) :
    ctx.lower e target pool = .error (ctx.exhaustion pool) := by
  induction e generalizing target pool with
  | literal pos c | const pos c | var pos v => cases target <;> cases h
  | not pos e ih =>
    rw [Resolved.Expr.demandFor_not] at h
    by_cases hle : e.demand ≤ pool.freeCount
    · obtain ⟨x, code, pool₁, hx⟩ := lower_of_demand_le e none pool hhoused hle
      obtain ⟨pool₂, htakes, hlower⟩ := lower_not_eq pos hx
      have hfree := htakes.freeCount_nil
      rw [hlower, result_of_lt (by omega), exhaustion_eq htakes]
      rfl
    · have hoperand := ih none pool hhoused (Nat.lt_of_not_le hle)
      simp only [lower, hoperand]
      rfl
  | binary op left right ihl ihr =>
    rw [Resolved.Expr.demandFor_binary] at h
    by_cases hle : left.demand ≤ pool.freeCount
    · obtain ⟨x, code₁, pool₁, hx⟩ := lower_of_demand_le left none pool hhoused.left hle
      have hfree := freeCount_of_lower hx
      by_cases hle' : right.demand ≤ pool₁.freeCount
      · obtain ⟨y, code₂, pool₂, hy⟩ := lower_of_demand_le right none pool₁ hhoused.right hle'
        obtain ⟨pool₃, htakes, hlower⟩ := lower_binary_eq op hx hy
        have hfree' := htakes.freeCount_nil
        rw [hlower, result_of_lt (by omega), exhaustion_eq htakes]
        rfl
      · have hoperand := ihr none pool₁ hhoused.right (Nat.lt_of_not_le hle')
        rw [exhaustion_eq (takes_of_lower hx)] at hoperand
        simp only [lower, hx, hoperand, bind, Except.bind]
    · have hoperand := ihl none pool hhoused.left (Nat.lt_of_not_le hle)
      simp only [lower, hoperand]
      rfl

end ExprContext

end Lowering

end Chipwright
