import Chipwright.Lowering.Expression
import Chipwright.Proofs.Basics
import Chipwright.Proofs.RegisterPool
import Chipwright.Proofs.Resolved.Variables

/-!
# Registers of lowered expressions

Lowering an expression takes at most one register, the one of its result, and gives back all
others. Its code writes registers that were free, and the target if there is one.
-/
namespace Chipwright.Lowering

namespace Value

/-- The registers that the reader of a value has to give back. -/
def taken : Value → List Register
  | scratch r => [r]
  | _ => []

variable {p q t : RegisterPool} {x : Value}

theorem used_of_release (h : x.release p = .ok q) : q.used = p.used := by
  cases x with
  | scratch r =>
    obtain ⟨-, rfl⟩ := RegisterPool.release_eq_ok.1 h
    rfl
  | immediate c =>
    cases h
    rfl
  | home r =>
    cases h
    rfl

theorem used_of_releaseAll {values : List Value} (h : releaseAll p values = .ok q) :
    q.used = p.used := by
  induction values generalizing p with
  | nil =>
    cases h
    rfl
  | cons x values ih =>
    simp only [releaseAll, bind_eq_ok] at h
    obtain ⟨p', hp', h⟩ := h
    rw [ih h, used_of_release hp']

theorem takes_of_release {xs ys : List Register} (h : p.Takes (xs ++ x.taken ++ ys) q)
    (ht : x.release q = .ok t) : p.Takes (xs ++ ys) t := by
  cases x with
  | scratch r =>
    simp only [taken, List.append_assoc, List.singleton_append] at h
    exact h.release ht
  | immediate c =>
    cases ht
    simpa [taken] using h
  | home r =>
    cases ht
    simpa [taken] using h

/-- A value that was the last one to take a register gives it back. -/
theorem takes_nil_of_release (h : p.Takes x.taken q) (ht : x.release q = .ok t) :
    p.Takes [] t := by
  have h' : p.Takes ([] ++ x.taken ++ []) q := by simpa using h
  exact takes_of_release h' ht

/-- A register that has been taken can be given back. -/
theorem exists_release (h : p.Takes x.taken q) : ∃ t, x.release q = .ok t := by
  cases x with
  | scratch r =>
    have hr : r ∈ q.innermost := by simp [h.innermost, taken]
    exact ⟨_, RegisterPool.release_eq_ok.2 ⟨hr, rfl⟩⟩
  | immediate c => exact ⟨q, rfl⟩
  | home r => exact ⟨q, rfl⟩

theorem takes_of_releaseAll {values : List Value}
    (h : p.Takes (values.flatMap taken) q) (ht : releaseAll q values = .ok t) : p.Takes [] t := by
  induction values generalizing q with
  | nil =>
    cases ht
    simpa using h
  | cons x values ih =>
    simp only [releaseAll, bind_eq_ok] at ht
    obtain ⟨q', hq', ht⟩ := ht
    have h' : p.Takes ([] ++ x.taken ++ values.flatMap taken) q := by simpa using h
    exact ih (takes_of_release h' hq') ht

end Value

/-- A line computes a value into a register, from values that are known. -/
inductive Line.Computes : Line → Register → Prop
  | binary (op : BinaryOp) (r : Register) (x y : Value) (origin : Origin) :
    Computes ⟨op.opcode, [.register r, x.operand, y.operand], origin⟩ r
  | not (r : Register) (x : Value) (origin : Origin) :
    Computes ⟨.seqz, [.register r, x.operand], origin⟩ r
  | move (r : Register) (x : Value) (origin : Origin) :
    Computes ⟨.move, [.register r, x.operand], origin⟩ r

namespace ExprContext

variable {d x : Value} {code : Code} {e : Resolved.Expr} {es : List Resolved.Expr}
  {xs : List Value} {r : Register}

variable {ctx : ExprContext} {target : Option Register} {pool pool' : RegisterPool}

theorem result_eq_ok (h : ctx.result target pool = .ok (x, pool')) :
    (∃ r, target = some r ∧ x = .home r ∧ pool' = pool) ∨
      ∃ r, target = none ∧ x = .scratch r ∧ pool.Takes [r] pool' := by
  cases target with
  | some r =>
    cases h
    exact Or.inl ⟨r, rfl, rfl, rfl⟩
  | none =>
    simp only [result, bind_eq_ok, pure_eq_ok, Prod.mk.injEq] at h
    obtain ⟨⟨r, pool₁⟩, hallocate, rfl, rfl⟩ := h
    exact Or.inr ⟨r, rfl, rfl, RegisterPool.takes_of_allocate hallocate⟩

/-- How the forms of expressions are lowered: the steps that each of them is made of, its value, its
code, and the pool after it. -/
inductive Lowers (ctx : ExprContext) :
    Resolved.Expr → Option Register → RegisterPool → Value → Code → RegisterPool → Prop
  | literal {pos c target pool} : Lowers ctx (.literal pos c) target pool (.immediate c) [] pool
  | const {pos c target pool} : Lowers ctx (.const pos c) target pool (.immediate c.value) [] pool
  | var {pos v target pool} (r : Register) (hhome : ctx.homes.lookup v = some r) :
    Lowers ctx (.var pos v) target pool (.home r) [] pool
  | not {pos e target pool code pool₁ pool₂ pool'} (x d : Value)
      (hx : ctx.lower e none pool = .ok (x, code, pool₁)) (hrelease : x.release pool₁ = .ok pool₂)
      (hresult : ctx.result target pool₂ = .ok (d, pool'))
      (operand : Lowers ctx e none pool x code pool₁) :
    Lowers ctx (.not pos e) target pool d
      (code ++ [ctx.origin.line .seqz [d.operand, x.operand]]) pool'
  | binary {op left right target pool code₁ pool₁ code₂ pool₂ pool₃ pool₄ pool'} (x y d : Value)
      (hx : ctx.lower left none pool = .ok (x, code₁, pool₁))
      (hy : ctx.lower right none pool₁ = .ok (y, code₂, pool₂))
      (hx' : x.release pool₂ = .ok pool₃) (hy' : y.release pool₃ = .ok pool₄)
      (hresult : ctx.result target pool₄ = .ok (d, pool'))
      (first : Lowers ctx left none pool x code₁ pool₁)
      (second : Lowers ctx right none pool₁ y code₂ pool₂) :
    Lowers ctx (.binary op left right) target pool d
      (code₁ ++ code₂ ++ [ctx.origin.line op.opcode [d.operand, x.operand, y.operand]]) pool'

theorem lowers_of_lower (h : ctx.lower e target pool = .ok (x, code, pool')) :
    ctx.Lowers e target pool x code pool' := by
  induction e generalizing target pool x code pool' with
  | literal pos c =>
    cases h
    exact .literal
  | const pos c =>
    cases h
    exact .const
  | var pos v =>
    simp only [lower, Homes.get] at h
    cases hlookup : ctx.homes.lookup v with
    | none =>
      rw [hlookup] at h
      cases h
    | some r =>
      rw [hlookup] at h
      cases h
      exact .var r hlookup
  | not pos e ih =>
    simp only [lower, bind_eq_ok, pure_eq_ok, Prod.mk.injEq] at h
    obtain ⟨⟨y, code₁, pool₁⟩, hy, pool₂, hrelease, ⟨d, pool₃⟩, hresult, rfl, rfl, rfl⟩ := h
    exact .not y d hy hrelease hresult (ih hy)
  | binary op left right ihl ihr =>
    simp only [lower, bind_eq_ok, pure_eq_ok, Prod.mk.injEq] at h
    obtain ⟨⟨y, code₁, pool₁⟩, hy, ⟨z, code₂, pool₂⟩, hz, pool₃, hy', pool₄, hz', ⟨d, pool₅⟩,
      hresult, rfl, rfl, rfl⟩ := h
    exact .binary y z d hy hz hy' hz' hresult (ihl hy) (ihr hz)

theorem takes_of_result (h : ctx.result target pool = .ok (x, pool')) :
    pool.Takes x.taken pool' := by
  rcases result_eq_ok h with ⟨r, -, rfl, rfl⟩ | ⟨r, -, rfl, htakes⟩
  · exact .refl _
  · exact htakes

/-- What was used when operands gave back their registers is used after the result got its own. -/
theorem used_of_result {pool₀ : RegisterPool} (h : ctx.result target pool = .ok (x, pool'))
    (hused : pool.used = pool₀.used) : ∀ r ∈ pool₀.used, r ∈ pool'.used :=
  fun r hr => (takes_of_result h).used r (hused ▸ hr)

/-- The registers of two operands are free again before the result gets its own. -/
theorem takes_of_release_two {y : Value} {pool₁ pool₂ pool₃ pool₄ : RegisterPool}
    (hx : pool.Takes x.taken pool₁) (hy : pool₁.Takes y.taken pool₂)
    (hx' : x.release pool₂ = .ok pool₃) (hy' : y.release pool₃ = .ok pool₄) :
    pool.Takes [] pool₄ := by
  have h₂ : pool.Takes ([] ++ x.taken ++ y.taken) pool₂ := by simpa using hx.trans hy
  exact Value.takes_nil_of_release (Value.takes_of_release h₂ hx') hy'

/-- Lowering an expression takes the register of its result and no other. -/
theorem takes_of_lower (h : ctx.lower e target pool = .ok (x, code, pool')) :
    pool.Takes x.taken pool' := by
  replace h := lowers_of_lower h
  induction h with
  | literal | const | var => exact .refl _
  | not _ _ _ hrelease hresult _ ih =>
    exact (Value.takes_nil_of_release ih hrelease).trans (takes_of_result hresult)
  | binary _ _ _ _ _ hx' hy' hresult _ _ ihl ihr =>
    exact (takes_of_release_two ihl ihr hx' hy').trans (takes_of_result hresult)

/-- A register that an expression may write: the target, or one that was free. -/
def Writable (target : Option Register) (pool pool' : RegisterPool) (r : Register) : Prop :=
  target = some r ∨ r ∉ pool.live ∧ r ∈ pool'.used

theorem writable_of_result {pool₀ : RegisterPool} (h₀ : pool₀.Takes [] pool)
    (h : ctx.result target pool = .ok (d, pool')) :
    ∃ r, d.operand = .register r ∧ Writable target pool₀ pool' r := by
  rcases result_eq_ok h with ⟨r, rfl, rfl, -⟩ | ⟨r, -, rfl, htakes⟩
  · exact ⟨r, rfl, Or.inl rfl⟩
  · have hfree : r ∉ pool₀.live := fun hr =>
      htakes.free r (by simp) (h₀.mem_live.2 (Or.inl hr))
    exact ⟨r, rfl, Or.inr ⟨hfree, htakes.taken r (by simp)⟩⟩

/-- The code of an expression computes into the target and into free registers. -/
theorem computes_of_lower (h : ctx.lower e target pool = .ok (x, code, pool')) :
    ∀ piece ∈ code, ∃ l r, piece = .line l ∧ l.Computes r ∧ Writable target pool pool' r := by
  replace h := lowers_of_lower h
  induction h with
  | literal | const | var => simp
  | not x _ hx hrelease hresult _ ih =>
    have hused := used_of_result hresult (Value.used_of_release hrelease)
    have htakes := Value.takes_nil_of_release (takes_of_lower hx) hrelease
    intro piece hpiece
    rcases List.mem_append.1 hpiece with hpiece | hpiece
    · obtain ⟨l, r, rfl, hl, hr | ⟨hfree, hr⟩⟩ := ih piece hpiece
      · cases hr
      · exact ⟨l, r, rfl, hl, Or.inr ⟨hfree, hused r hr⟩⟩
    · obtain ⟨r, hd, hr⟩ := writable_of_result htakes hresult
      rw [List.mem_singleton.1 hpiece, hd]
      exact ⟨_, r, rfl, .not r x ctx.origin, hr⟩
  | binary x y _ hx hy hx' hy' hresult _ _ ihl ihr =>
    have h₁ := takes_of_lower hx
    have h₂ := takes_of_lower hy
    have hused := used_of_result hresult
      ((Value.used_of_release hy').trans (Value.used_of_release hx'))
    intro piece hpiece
    rcases List.mem_append.1 hpiece with hpiece | hpiece
    · rcases List.mem_append.1 hpiece with hpiece | hpiece
      · obtain ⟨l, r, rfl, hl, hr | ⟨hfree, hr⟩⟩ := ihl piece hpiece
        · cases hr
        · exact ⟨l, r, rfl, hl, Or.inr ⟨hfree, hused r (h₂.used r hr)⟩⟩
      · obtain ⟨l, r, rfl, hl, hr | ⟨hfree, hr⟩⟩ := ihr piece hpiece
        · cases hr
        · exact ⟨l, r, rfl, hl,
            Or.inr ⟨fun hlive => hfree (h₁.mem_live.2 (Or.inl hlive)), hused r hr⟩⟩
    · obtain ⟨r, hd, hr⟩ := writable_of_result (takes_of_release_two h₁ h₂ hx' hy') hresult
      rw [List.mem_singleton.1 hpiece, hd]
      exact ⟨_, r, rfl, .binary _ r x y ctx.origin, hr⟩

/-! ## Lists of expressions, and values with a place to go -/

theorem lowerAll_cons_eq_ok (h : ctx.lowerAll (e :: es) pool = .ok (xs, code, pool')) :
    ∃ x code₁ pool₁ ys code₂, ctx.lower e none pool = .ok (x, code₁, pool₁) ∧
      ctx.lowerAll es pool₁ = .ok (ys, code₂, pool') ∧ xs = x :: ys ∧ code = code₁ ++ code₂ := by
  simp only [lowerAll, bind_eq_ok, pure_eq_ok, Prod.mk.injEq] at h
  obtain ⟨⟨x, code₁, pool₁⟩, hx, ⟨ys, code₂, pool₂⟩, hys, rfl, rfl, rfl⟩ := h
  exact ⟨x, code₁, pool₁, ys, code₂, hx, hys, rfl, rfl⟩

theorem takes_of_lowerAll (h : ctx.lowerAll es pool = .ok (xs, code, pool')) :
    pool.Takes (xs.flatMap Value.taken) pool' := by
  induction es generalizing pool xs code with
  | nil =>
    cases h
    exact .refl _
  | cons e es ih =>
    obtain ⟨x, code₁, pool₁, ys, code₂, hx, hys, rfl, -⟩ := lowerAll_cons_eq_ok h
    exact (takes_of_lower hx).trans (ih hys)

theorem computes_of_lowerAll (h : ctx.lowerAll es pool = .ok (xs, code, pool')) :
    ∀ piece ∈ code, ∃ l r, piece = .line l ∧ l.Computes r ∧ Writable none pool pool' r := by
  induction es generalizing pool xs code with
  | nil =>
    cases h
    simp
  | cons e es ih =>
    obtain ⟨x, code₁, pool₁, ys, code₂, hx, hys, -, rfl⟩ := lowerAll_cons_eq_ok h
    intro piece hpiece
    rcases List.mem_append.1 hpiece with hpiece | hpiece
    · obtain ⟨l, r, rfl, hl, hr | ⟨hfree, hr⟩⟩ := computes_of_lower hx piece hpiece
      · cases hr
      · exact ⟨l, r, rfl, hl, Or.inr ⟨hfree, (takes_of_lowerAll hys).used r hr⟩⟩
    · obtain ⟨l, r, rfl, hl, hr | ⟨hfree, hr⟩⟩ := ih hys piece hpiece
      · cases hr
      · exact ⟨l, r, rfl, hl,
          Or.inr ⟨fun hlive => hfree ((takes_of_lower hx).mem_live.2 (Or.inl hlive)), hr⟩⟩

/-- The value of an expression is a number, that of a variable, or the result of an operator. -/
theorem value_of_lower (h : ctx.lower e target pool = .ok (x, code, pool')) :
    (∃ c, x = .immediate c) ∨ (∃ v ∈ e.vars, ∃ r, ctx.homes.lookup v = some r ∧ x = .home r) ∨
      ∃ pool₁, ctx.result target pool₁ = .ok (x, pool') := by
  cases lowers_of_lower h with
  | literal | const => exact Or.inl ⟨_, rfl⟩
  | var r hhome => exact Or.inr (Or.inl ⟨_, List.mem_singleton.2 rfl, r, hhome, rfl⟩)
  | not _ _ _ _ hresult | binary _ _ _ _ _ _ _ hresult => exact Or.inr (Or.inr ⟨_, hresult⟩)

/-- A value in a register that belongs to something else: the target, or that of a variable. -/
theorem home_of_lower (h : ctx.lower e target pool = .ok (.home r, code, pool')) :
    target = some r ∨ ∃ v ∈ e.vars, ctx.homes.lookup v = some r := by
  obtain ⟨_, heq⟩ | ⟨v, hv, r', hlookup, heq⟩ | ⟨_, hresult⟩ := value_of_lower h
  · cases heq
  · cases heq
    exact Or.inr ⟨v, hv, hlookup⟩
  · obtain ⟨r', htarget, heq, -⟩ | ⟨_, -, heq, -⟩ := result_eq_ok hresult
    · cases heq
      exact Or.inl htarget
    · cases heq

/-- A value that is in a register at all is in a live one. -/
theorem live_of_lower (h : ctx.lower e none pool = .ok (x, code, pool'))
    (hvars : ∀ v ∈ e.vars, ∀ r, ctx.homes.lookup v = some r → r ∈ pool.live)
    (hr : x.operand = .register r) : r ∈ pool'.live := by
  have htakes := takes_of_lower h
  cases x with
  | immediate c => cases hr
  | scratch r' =>
    cases hr
    exact htakes.mem_live.2 (Or.inr (by simp [Value.taken]))
  | home r' =>
    cases hr
    obtain htarget | ⟨v, hv, hlookup⟩ := home_of_lower h
    · cases htarget
    · exact htakes.mem_live.2 (Or.inl (hvars v hv r hlookup))

theorem live_of_lowerAll (h : ctx.lowerAll es pool = .ok (xs, code, pool'))
    (hvars : ∀ e ∈ es, ∀ v ∈ e.vars, ∀ r, ctx.homes.lookup v = some r → r ∈ pool.live) :
    ∀ x ∈ xs, ∀ r, x.operand = .register r → r ∈ pool'.live := by
  induction es generalizing pool xs code with
  | nil =>
    cases h
    simp
  | cons e es ih =>
    obtain ⟨y, code₁, pool₁, ys, code₂, hy, hys, rfl, -⟩ := lowerAll_cons_eq_ok h
    intro x hx r hr
    rcases List.mem_cons.1 hx with rfl | hx
    · have hlive := live_of_lower hy (fun v hv => hvars e (List.mem_cons_self ..) v hv) hr
      exact (takes_of_lowerAll hys).mem_live.2 (Or.inl hlive)
    · refine ih hys (fun e' he' v hv r' hr' => ?_) x hx r hr
      have hlive := hvars e' (List.mem_cons_of_mem _ he') v hv r' hr'
      exact (takes_of_lower hy).mem_live.2 (Or.inl hlive)

/-- With a target, nothing has to be given back. -/
theorem taken_of_lower_some (h : ctx.lower e (some r) pool = .ok (x, code, pool')) :
    x.taken = [] := by
  obtain ⟨_, rfl⟩ | ⟨_, -, _, -, rfl⟩ | ⟨_, hresult⟩ := value_of_lower h
  · rfl
  · rfl
  · obtain ⟨_, -, rfl, -⟩ | ⟨_, hnone, -⟩ := result_eq_ok hresult
    · rfl
    · cases hnone

theorem release_of_taken_eq_nil (h : x.taken = []) : x.release pool = .ok pool := by
  cases x with
  | scratch r => cases h
  | immediate c => rfl
  | home r => rfl

theorem lowerInto_eq_ok (h : ctx.lowerInto e r pool = .ok (code, pool')) :
    ∃ x code₁, ctx.lower e (some r) pool = .ok (x, code₁, pool') ∧
      (x.operand = .register r ∧ code = code₁ ∨
        x.operand ≠ .register r ∧
          code = code₁ ++ [ctx.origin.line .move [.register r, x.operand]]) := by
  simp only [lowerInto, bind_eq_ok] at h
  obtain ⟨⟨x, code₁, pool₁⟩, hx, h⟩ := h
  by_cases hoperand : x.operand = .register r
  · simp only [if_pos hoperand, pure_eq_ok, Prod.mk.injEq] at h
    obtain ⟨rfl, rfl⟩ := h
    exact ⟨x, code₁, hx, Or.inl ⟨hoperand, rfl⟩⟩
  · rw [if_neg hoperand] at h
    simp only [release_of_taken_eq_nil (taken_of_lower_some hx), bind_eq_ok, pure_eq_ok,
      Prod.mk.injEq, Except.ok.injEq] at h
    obtain ⟨_, rfl, rfl, rfl⟩ := h
    exact ⟨x, code₁, hx, Or.inr ⟨hoperand, rfl⟩⟩

theorem takes_of_lowerInto (h : ctx.lowerInto e r pool = .ok (code, pool')) :
    pool.Takes [] pool' := by
  obtain ⟨x, code₁, hx, -⟩ := lowerInto_eq_ok h
  simpa [taken_of_lower_some hx] using takes_of_lower hx

theorem computes_of_lowerInto (h : ctx.lowerInto e r pool = .ok (code, pool')) :
    ∀ piece ∈ code, ∃ l r', piece = .line l ∧ l.Computes r' ∧
      Writable (some r) pool pool' r' := by
  obtain ⟨x, code₁, hx, ⟨-, rfl⟩ | ⟨-, rfl⟩⟩ := lowerInto_eq_ok h
  · exact computes_of_lower hx
  · intro piece hpiece
    rcases List.mem_append.1 hpiece with hpiece | hpiece
    · exact computes_of_lower hx piece hpiece
    · rw [List.mem_singleton.1 hpiece]
      exact ⟨_, r, rfl, .move r x ctx.origin, Or.inl rfl⟩

end ExprContext

end Chipwright.Lowering
