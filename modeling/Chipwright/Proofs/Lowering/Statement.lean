import Chipwright.Proofs.Lowering.Expression
import Chipwright.Proofs.Lowering.Steps

/-!
# Registers of lowered statements

What lowering a statement does to the state. A statement takes a register for the variable
that it defines, if it does, and no other; every variable in it gets a register that was free
before; and every call in it is noted with at least the registers that were live before.
-/
namespace Chipwright.Lowering

/-- What lowering statements does to the state: `defines` are the variables that count after
them, `binds` all variables that got a register, and `callees` the functions that are
called. -/
structure Effect (s₀ : State) (defines binds : List Variable) (callees : List String)
    (s₁ : State) : Prop where
  parameters : s₁.parameters = s₀.parameters
  used : s₁.used = s₀.used
  taken : ∃ own : Homes, own.map Prod.fst = defines ∧
    s₀.pool.Takes (own.map Prod.snd) s₁.pool ∧ ∀ e ∈ own, e ∈ s₁.homes
  homes : ∃ new : Homes, s₁.homes = new ++ s₀.homes ∧ new.map Prod.fst = binds.reverse ∧
    ∀ e ∈ new, e.2 ∉ s₀.pool.live ∧ e.2 ∈ s₁.pool.used
  calls : ∃ new, s₁.liveAtCalls = s₀.liveAtCalls ++ new ∧ new.map Prod.fst = callees ∧
    ∀ e ∈ new, ∀ r ∈ s₀.pool.live, r ∈ e.2

namespace Effect

variable {s s₀ s₁ s₂ : State} {defines defines' binds binds' : List Variable}
  {callees callees' : List String}

/-- The pool after statements, without the registers of the variables they define. -/
theorem takes (h : Effect s₀ defines binds callees s₁) : ∃ rs, s₀.pool.Takes rs s₁.pool := by
  obtain ⟨own, -, htakes, -⟩ := h.taken
  exact ⟨_, htakes⟩

theorem mem_homes (h : Effect s₀ defines binds callees s₁) {e : Variable × Register}
    (he : e ∈ s₀.homes) : e ∈ s₁.homes := by
  obtain ⟨new, hnew, -, -⟩ := h.homes
  rw [hnew]
  exact List.mem_append_right _ he

theorem mem_calls (h : Effect s₀ defines binds callees s₁) {e : String × List Register}
    (he : e ∈ s₀.liveAtCalls) : e ∈ s₁.liveAtCalls := by
  obtain ⟨new, hnew, -, -⟩ := h.calls
  rw [hnew]
  exact List.mem_append_left _ he

theorem mem_used (h : Effect s₀ defines binds callees s₁) {r : Register}
    (hr : r ∈ s₀.pool.used) : r ∈ s₁.pool.used := by
  obtain ⟨rs, htakes⟩ := h.takes
  exact htakes.used r hr

theorem mem_live (h : Effect s₀ defines binds callees s₁) {r : Register}
    (hr : r ∈ s₀.pool.live) : r ∈ s₁.pool.live := by
  obtain ⟨rs, htakes⟩ := h.takes
  exact htakes.mem_live.2 (Or.inl hr)

/-- No register is kept, and no variable or call is noted. -/
theorem of_takes (h : s₀.pool.Takes [] s₁.pool)
    (hs₁ : s₁.parameters = s₀.parameters ∧ s₁.used = s₀.used ∧ s₁.homes = s₀.homes ∧
      s₁.liveAtCalls = s₀.liveAtCalls) : Effect s₀ [] [] [] s₁ where
  parameters := hs₁.1
  used := hs₁.2.1
  taken := ⟨[], rfl, h, by simp⟩
  homes := ⟨[], hs₁.2.2.1, rfl, by simp⟩
  calls := ⟨[], by simp [hs₁.2.2.2], rfl, by simp⟩

theorem refl (s : State) : Effect s [] [] [] s :=
  of_takes (.refl _) ⟨rfl, rfl, rfl, rfl⟩

theorem trans (h : Effect s₀ defines binds callees s₁)
    (h' : Effect s₁ defines' binds' callees' s₂) :
    Effect s₀ (defines ++ defines') (binds ++ binds') (callees ++ callees') s₂ where
  parameters := h'.parameters.trans h.parameters
  used := h'.used.trans h.used
  taken := by
    obtain ⟨own, rfl, htakes, hown⟩ := h.taken
    obtain ⟨own', rfl, htakes', hown'⟩ := h'.taken
    refine ⟨own ++ own', by simp, by simpa using htakes.trans htakes', fun e he => ?_⟩
    rcases List.mem_append.1 he with he | he
    · exact h'.mem_homes (hown e he)
    · exact hown' e he
  homes := by
    obtain ⟨new, hnew, hbinds, hregs⟩ := h.homes
    obtain ⟨new', hnew', hbinds', hregs'⟩ := h'.homes
    obtain ⟨rs, htakes⟩ := h.takes
    obtain ⟨rs', htakes'⟩ := h'.takes
    refine ⟨new' ++ new, by rw [hnew', hnew, List.append_assoc], by simp [hbinds, hbinds'],
      fun e he => ?_⟩
    rcases List.mem_append.1 he with he | he
    · obtain ⟨hfree, hused⟩ := hregs' e he
      exact ⟨fun hlive => hfree (htakes.mem_live.2 (Or.inl hlive)), hused⟩
    · obtain ⟨hfree, hused⟩ := hregs e he
      exact ⟨hfree, htakes'.used _ hused⟩
  calls := by
    obtain ⟨new, hnew, rfl, hlive⟩ := h.calls
    obtain ⟨new', hnew', rfl, hlive'⟩ := h'.calls
    obtain ⟨rs, htakes⟩ := h.takes
    refine ⟨new ++ new', by rw [hnew', hnew, List.append_assoc], by simp, fun e he r hr => ?_⟩
    rcases List.mem_append.1 he with he | he
    · exact hlive e he r hr
    · exact hlive' e he r (htakes.mem_live.2 (Or.inl hr))

/-- Statements in a block of their own: what they define is gone after them. -/
theorem framed {pool pool' : RegisterPool} {rs : List Register}
    (h : Effect s₀ defines binds callees s₁) (hpop : s₁.pool.pop = .ok (rs, pool'))
    (hpool : s.pool.Takes [] pool)
    (hs₀ : s₀.pool = pool.push ∧ s₀.homes = s.homes ∧ s₀.parameters = s.parameters ∧
      s₀.used = s.used ∧ s₀.liveAtCalls = s.liveAtCalls) :
    Effect s [] binds callees { s₁ with pool := pool' } := by
  obtain ⟨hpush, hhomes, hparameters, hused, hcalls⟩ := hs₀
  obtain ⟨rs', htakes⟩ := h.takes
  rw [hpush] at htakes
  have hpopped : s.pool.Takes [] pool' := hpool.trans (htakes.pop hpop)
  have hlive : ∀ r, r ∈ s.pool.live → r ∈ s₀.pool.live := by
    intro r hr
    rw [hpush, RegisterPool.mem_live_push]
    exact hpool.mem_live.2 (Or.inl hr)
  refine ⟨h.parameters.trans hparameters, h.used.trans hused, ⟨[], rfl, hpopped, by simp⟩, ?_, ?_⟩
  · obtain ⟨new, hnew, hbinds, hregs⟩ := h.homes
    refine ⟨new, by rw [← hhomes]; exact hnew, hbinds, fun e he => ?_⟩
    obtain ⟨hfree, hused⟩ := hregs e he
    exact ⟨fun hr => hfree (hlive _ hr), RegisterPool.used_of_pop hpop ▸ hused⟩
  · obtain ⟨new, hnew, hcallees, hkept⟩ := h.calls
    exact ⟨new, by rw [← hcalls]; exact hnew, hcallees, fun e he r hr => hkept e he r (hlive r hr)⟩

end Effect

namespace Context

variable {ctx : Context}

mutual

theorem effect_of_lowers :
    ∀ (st : Resolved.Stmt) {s₀ s₁ : State} {code : Code}, ctx.Lowers st s₀ code s₁ →
      Effect s₀ st.defines st.binds ((st.calls none).map (·.callee)) s₁
  | .define _ v _, _, _, _, .define r hallocate hlower => by
    have htakes := RegisterPool.takes_of_allocate hallocate
    have htakes' := htakes.trans (ExprContext.takes_of_lowerInto hlower)
    refine ⟨rfl, rfl, ⟨[(v, r)], rfl, by simpa using htakes', by simp⟩,
      ⟨[(v, r)], rfl, rfl, ?_⟩, ⟨[], by simp, rfl, by simp⟩⟩
    intro e he
    obtain rfl := List.mem_singleton.1 he
    exact ⟨htakes.free r (by simp), htakes'.taken r (by simp)⟩
  | .assign .., _, _, _, .assign _ _ hlower =>
    .of_takes (ExprContext.takes_of_lowerInto hlower) ⟨rfl, rfl, rfl, rfl⟩
  | .block body, _, _, _, .block hbody hpop =>
    (effect_of_stmts body hbody).framed hpop (.refl _) ⟨rfl, rfl, rfl, rfl, rfl⟩
  | .call _ f _, _, _, _, .call _ pool₁ hargs hrelease => by
    have htakes := ExprContext.takes_of_lowerAll hargs
    refine ⟨rfl, rfl, ⟨[], rfl, Value.takes_of_releaseAll htakes hrelease, by simp⟩,
      ⟨[], rfl, rfl, by simp⟩, ⟨[(f.name, pool₁.live)], rfl, rfl, ?_⟩⟩
    intro e he r hr
    obtain rfl := List.mem_singleton.1 he
    exact htakes.mem_live.2 (Or.inl hr)
  | .loop _ body, _, _, _, .loop hbody hpop =>
    (effect_of_stmts body hbody).framed hpop (.refl _) ⟨rfl, rfl, rfl, rfl, rfl⟩
  | .ifThen _ _ body, _, _, _, .ifThen _ hlower hrelease hbody hpop => by
    have htakes := Value.takes_nil_of_release (ExprContext.takes_of_lower hlower) hrelease
    exact (effect_of_stmts body hbody).framed hpop htakes ⟨rfl, rfl, rfl, rfl, rfl⟩
  | .ifElse _ _ thenBody elseBody, _, _, _, .ifElse _ hlower hrelease hthen hpop helse hpop' => by
    have htakes := Value.takes_nil_of_release (ExprContext.takes_of_lower hlower) hrelease
    have h₁ := (effect_of_stmts thenBody hthen).framed hpop htakes ⟨rfl, rfl, rfl, rfl, rfl⟩
    have h₂ := h₁.trans ((effect_of_stmts elseBody helse).framed hpop' (.refl _)
      ⟨rfl, rfl, rfl, rfl, rfl⟩)
    simpa [Resolved.Stmt.defines, Resolved.Stmt.binds, Resolved.Stmt.calls] using h₂
  | .read .., _, _, _, .read _ _ => .refl _
  | .write .., _, _, _, .write _ hlower hrelease => by
    have htakes := Value.takes_nil_of_release (ExprContext.takes_of_lower hlower) hrelease
    exact .of_takes htakes ⟨rfl, rfl, rfl, rfl⟩
  | .yield _, _, _, _, .yield => .refl _

/-- The state after statements. -/
theorem effect_of_stmts :
    ∀ (sts : List Resolved.Stmt) {s₀ s₁ : State} {code : Code}, ctx.stmts sts s₀ = .ok code s₁ →
      Effect s₀ (sts.flatMap Resolved.Stmt.defines) (Resolved.Stmt.bindsAll sts)
        ((Resolved.Stmt.callsAll none sts).map (·.callee)) s₁
  | [], s₀, _, _, h => by
    obtain ⟨-, rfl⟩ := stmts_nil_eq_ok h
    exact .refl _
  | st :: sts, s₀, _, _, h => by
    obtain ⟨code₁, s₁, code₂, h₁, h₂, -⟩ := stmts_cons_eq_ok h
    simpa [Resolved.Stmt.bindsAll, Resolved.Stmt.callsAll] using
      (effect_of_lowers st (lowers_of_stmt h₁)).trans (effect_of_stmts sts h₂)

end

/-- The state after a statement. -/
theorem effect_of_stmt (st : Resolved.Stmt) {s₀ s₁ : State} {code : Code}
    (h : ctx.stmt st s₀ = .ok code s₁) :
    Effect s₀ st.defines st.binds ((st.calls none).map (·.callee)) s₁ :=
  effect_of_lowers st (lowers_of_stmt h)

/-- The state after the top-level code: its statements count, and nothing else. -/
theorem effect_of_items {is : List Resolved.Item} {s₀ s₁ : State} {code : Code}
    (h : ctx.items is s₀ = .ok code s₁) :
    Effect s₀ ((is.filterMap Resolved.Item.stmt?).flatMap Resolved.Stmt.defines)
      (Resolved.Stmt.bindsAll (is.filterMap Resolved.Item.stmt?))
      ((Resolved.Stmt.callsAll none (is.filterMap Resolved.Item.stmt?)).map (·.callee)) s₁ := by
  induction is generalizing s₀ code with
  | nil =>
    obtain ⟨-, rfl⟩ := items_nil_eq_ok h
    exact .refl _
  | cons i is ih =>
    obtain ⟨code₁, s, code₂, h₁, h₂, -⟩ := items_cons_eq_ok h
    rcases item_eq_ok h₁ with ⟨st, rfl, hst⟩ | ⟨hnone, ⟨devices, rfl⟩, -⟩
    · have heffect := (effect_of_stmt st hst).trans (ih h₂)
      simpa [Resolved.Item.stmt?, Resolved.Stmt.bindsAll, Resolved.Stmt.callsAll] using heffect
    · rw [List.filterMap_cons_none hnone]
      have hname : Effect s₀ [] [] [] { s₀ with devices } :=
        .of_takes (.refl _) ⟨rfl, rfl, rfl, rfl⟩
      exact hname.trans (ih h₂)

end Context

end Chipwright.Lowering
