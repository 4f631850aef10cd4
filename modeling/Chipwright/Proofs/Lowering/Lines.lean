import Chipwright.Proofs.Lowering.Visibility

/-!
# The lines of lowered statements

What the lines of a piece of code can do. They write registers that were free before, or
those of variables that are assigned to; they jump to labels of the same piece; and they call
functions that have been noted, with arguments that are live at the call.
-/
namespace Chipwright.Lowering

variable {l : Line}

/-- A line of a routine that writes certain registers, has certain labels, and makes certain
calls, each of which keeps certain registers. -/
inductive Line.Fits (writes : Register → Prop) (labels : Label → Prop)
    (calls : String → List Register → Prop) : Line → Prop
  | computes {l : Line} {r : Register} : l.Computes r → writes r → Fits writes labels calls l
  | load (r : Register) (slot : Slot) (property : String) (origin : Origin) :
    writes r → Fits writes labels calls
      ⟨.load, [.register r, .device slot, .name property], origin⟩
  | argument (f : String) (index : Int) (x : Value) (kept : List Register) (origin : Origin) :
    calls f kept → (∀ r, x.operand = .register r → r ∈ kept) →
      Fits writes labels calls ⟨.move, [.parameter f index, x.operand], origin⟩
  | call (f : String) (kept : List Register) (origin : Origin) :
    calls f kept → Fits writes labels calls
      ⟨.jumpAndLink, [.label (.function f)], origin⟩
  | jump (label : Label) (origin : Origin) :
    labels label → Fits writes labels calls ⟨.jump, [.label label], origin⟩
  | branch (x : Value) (label : Label) (origin : Origin) :
    labels label → Fits writes labels calls ⟨.branchZero, [x.operand, .label label], origin⟩
  | store (slot : Slot) (property : String) (x : Value) (origin : Origin) :
    Fits writes labels calls ⟨.store, [.device slot, .name property, x.operand], origin⟩
  | yield (origin : Origin) : Fits writes labels calls ⟨.yield, [], origin⟩
  | nameDevice (name : String) (slot : Slot) (origin : Origin) :
    Fits writes labels calls ⟨.nameDevice, [.name name, .device slot], origin⟩

theorem Line.Fits.mono {writes writes' : Register → Prop} {labels labels' : Label → Prop}
    {calls calls' : String → List Register → Prop} (h : l.Fits writes labels calls)
    (hwrites : ∀ r, writes r → writes' r) (hlabels : ∀ n, labels n → labels' n)
    (hcalls : ∀ f kept, calls f kept → calls' f kept) : l.Fits writes' labels' calls' := by
  cases h with
  | computes hl hr => exact .computes hl (hwrites _ hr)
  | load r slot property origin hr => exact .load r slot property origin (hwrites r hr)
  | argument f index x kept origin hf hx =>
    exact .argument f index x kept origin (hcalls f kept hf) hx
  | call f kept origin hf => exact .call f kept origin (hcalls f kept hf)
  | jump label origin hl => exact .jump label origin (hlabels label hl)
  | branch x label origin hl => exact .branch x label origin (hlabels label hl)
  | store slot property x origin => exact .store slot property x origin
  | yield origin => exact .yield origin
  | nameDevice name slot origin => exact .nameDevice name slot origin

/-- Code of which every line fits, with the labels of the code itself. -/
def Code.Fits (writes : Register → Prop) (calls : String → List Register → Prop)
    (code : Code) : Prop :=
  ∀ l, Piece.line l ∈ code → l.Fits writes (Piece.label · ∈ code) calls

/-- The registers that the code of statements may write. -/
def Written (s₀ s₁ : State) (targets : List Variable) (r : Register) : Prop :=
  r ∉ s₀.pool.live ∧ r ∈ s₁.pool.used ∨ ∃ v ∈ targets, (v, r) ∈ s₁.homes

/-- A call of a function was noted with the registers that it keeps. -/
def Noted (s₀ s₁ : State) (callees : List String) (f : String) (kept : List Register) : Prop :=
  f ∈ callees ∧ (f, kept) ∈ s₁.liveAtCalls ∧ ∀ r ∈ s₀.pool.live, r ∈ kept

/-- Lowering from `s` to `s'` is a part of lowering from `s₀` to `s₁`. -/
structure Within (s s' s₀ s₁ : State) : Prop where
  live : ∀ r ∈ s₀.pool.live, r ∈ s.pool.live
  used : ∀ r ∈ s'.pool.used, r ∈ s₁.pool.used
  homes : ∀ e ∈ s'.homes, e ∈ s₁.homes
  calls : ∀ e ∈ s'.liveAtCalls, e ∈ s₁.liveAtCalls

variable {ctx : Context} {table : Homes} {outer own : List Variable} {s s' s₀ s₁ : State}
  {code code' : Code} {targets targets' : List Variable} {callees callees' : List String}

namespace Within

/-- A part in a frame of its own. -/
theorem of_pop {pool : RegisterPool} {rs : List Register}
    (hlive : ∀ r ∈ s₀.pool.live, r ∈ s.pool.live) (hpop : s'.pool.pop = .ok (rs, pool)) :
    Within s s' s₀ { s' with pool } :=
  ⟨hlive, fun _ hr => RegisterPool.used_of_pop hpop ▸ hr, fun _ he => he, fun _ he => he⟩

/-- What comes after a part adds to it. -/
theorem extend {s₂ : State} {defines binds : List Variable} (h : Within s s' s₀ s₂)
    (heffect : Effect s₂ defines binds callees s₁) : Within s s' s₀ s₁ :=
  ⟨h.live, fun r hr => heffect.mem_used (h.used r hr), fun e he => heffect.mem_homes (h.homes e he),
    fun e he => heffect.mem_calls (h.calls e he)⟩

/-- The first part. -/
theorem first {defines binds : List Variable} (heffect : Effect s defines binds callees s₁) :
    Within s₀ s s₀ s₁ :=
  extend ⟨fun _ hr => hr, fun _ hr => hr, fun _ he => he, fun _ he => he⟩ heffect

/-- The last part. -/
theorem last (hlive : ∀ r ∈ s₀.pool.live, r ∈ s.pool.live) : Within s s₁ s₀ s₁ :=
  ⟨hlive, fun _ hr => hr, fun _ he => he, fun _ he => he⟩

end Within

/-- The lines of a part are lines of the whole. -/
theorem Code.Fits.line (h : Code.Fits (Written s s' targets) (Noted s s' callees) code)
    (hwithin : Within s s' s₀ s₁) (htargets : ∀ v ∈ targets, v ∈ targets')
    (hcallees : ∀ f ∈ callees, f ∈ callees') (hcode : ∀ piece ∈ code, piece ∈ code')
    (hl : Piece.line l ∈ code) :
    l.Fits (Written s₀ s₁ targets') (Piece.label · ∈ code') (Noted s₀ s₁ callees') := by
  refine (h l hl).mono ?_ (fun label hlabel => hcode _ hlabel) ?_
  · rintro r (⟨hfree, hused⟩ | ⟨v, hv, hr⟩)
    · exact Or.inl ⟨fun hlive => hfree (hwithin.live r hlive), hwithin.used r hused⟩
    · exact Or.inr ⟨v, htargets v hv, hwithin.homes _ hr⟩
  · rintro f kept ⟨hf, hkept, hlive⟩
    exact ⟨hcallees f hf, hwithin.calls _ hkept, fun r hr => hlive r (hwithin.live r hr)⟩

/-- The lines of an expression. -/
theorem fits_of_computes {pool : RegisterPool}
    (h : ∀ piece ∈ code, ∃ l r, piece = .line l ∧ l.Computes r ∧
      ExprContext.Writable none s₀.pool pool r) (hused : ∀ r ∈ pool.used, r ∈ s₁.pool.used)
    (hl : Piece.line l ∈ code) (labels : Label → Prop) :
    l.Fits (Written s₀ s₁ targets) labels (Noted s₀ s₁ callees) := by
  obtain ⟨l', r, heq, hcomputes, htarget | ⟨hfree, hr⟩⟩ := h _ hl
  · cases htarget
  · cases heq
    exact .computes hcomputes (Or.inl ⟨hfree, hused r hr⟩)

/-- The lines of an expression whose value goes to the register of a variable. -/
theorem fits_of_lowerInto {c : ExprContext} {e : Resolved.Expr} {r : Register}
    {pool pool' : RegisterPool} (h : c.lowerInto e r pool = .ok (code, pool'))
    (hr : Written s₀ s₁ targets r) (hlive : ∀ r ∈ s₀.pool.live, r ∈ pool.live)
    (hused : ∀ r ∈ pool'.used, r ∈ s₁.pool.used) (hl : Piece.line l ∈ code)
    (labels : Label → Prop) : l.Fits (Written s₀ s₁ targets) labels (Noted s₀ s₁ callees) := by
  obtain ⟨l', r', heq, hcomputes, htarget | ⟨hfree, hr'⟩⟩ :=
    ExprContext.computes_of_lowerInto h _ hl
  · cases heq
    cases htarget
    exact .computes hcomputes hr
  · cases heq
    exact .computes hcomputes (Or.inl ⟨fun h => hfree (hlive _ h), hused r' hr'⟩)

theorem mem_argumentMoves {origin : Origin} {f : String} {index : Int} {xs : List Value}
    {piece : Piece} (h : piece ∈ Context.argumentMoves origin f index xs) :
    ∃ i, ∃ x ∈ xs, piece = origin.line .move [.parameter f i, x.operand] := by
  induction xs generalizing index with
  | nil => cases h
  | cons x xs ih =>
    rcases List.mem_cons.1 h with rfl | h
    · exact ⟨index, x, List.mem_cons_self .., rfl⟩
    · obtain ⟨i, x', hx', heq⟩ := ih h
      exact ⟨i, x', List.mem_cons_of_mem _ hx', heq⟩

/-- The lines of the code of a statement fit it. -/
def StmtFits (ctx : Context) (table : Homes) (outer : List Variable) (st : Resolved.Stmt) : Prop :=
  ∀ {own : List Variable} {s₀ s₁ : State} {code : Code},
    Lowered ctx table outer own st s₀ code s₁ →
    Code.Fits (Written s₀ s₁ st.targets) (Noted s₀ s₁ ((st.calls none).map (·.callee))) code

/-- The lines of the code of statements fit them. -/
def StmtsFit (ctx : Context) (table : Homes) (outer : List Variable) (sts : List Resolved.Stmt) :
    Prop :=
  ∀ {own : List Variable} {s₀ s₁ : State} {code : Code},
    LoweredAll ctx table outer own sts s₀ code s₁ →
    Code.Fits (Written s₀ s₁ (Resolved.Stmt.targetsAll sts))
      (Noted s₀ s₁ ((Resolved.Stmt.callsAll none sts).map (·.callee))) code

section Statements

variable {pos : Position} {e : Resolved.Expr} {v : Variable} {st : Resolved.Stmt}
  {sts body thenBody elseBody : List Resolved.Stmt}

theorem fits_define : StmtFits ctx table outer (.define pos v e) := by
  intro own s₀ s₁ code h
  cases Context.lowers_of_stmt h.lowered with
  | define r hallocate hlower =>
    have htakes := RegisterPool.takes_of_allocate hallocate
    intro l hl
    refine fits_of_lowerInto hlower (Or.inl ⟨htakes.free r (by simp), ?_⟩) ?_ (fun r hr => hr)
      (by simpa using hl) _
    · exact (ExprContext.takes_of_lowerInto hlower).used r (htakes.taken r (by simp))
    · exact fun r hr => htakes.mem_live.2 (Or.inl hr)

theorem fits_assign : StmtFits ctx table outer (.assign pos v e) := by
  intro own s₀ s₁ code h
  cases Context.lowers_of_stmt h.lowered with
  | @assign _ _ _ _ _ _ _ pool r hhome hlower =>
    have hr : Written s₀ { s₀ with pool } [v] r :=
      Or.inr ⟨v, List.mem_singleton.2 rfl, mem_of_lookup hhome⟩
    intro l hl
    exact fits_of_lowerInto hlower hr (fun r hr => hr) (fun r hr => hr) (by simpa using hl) _

theorem fits_block (hbody : StmtsFit ctx table outer body) :
    StmtFits ctx table outer (.block body) := by
  intro own s₀ s₁ code h
  obtain ⟨code₁, s, rs, pool, hlowered, hpop, rfl, rfl⟩ := h.block
  have hwithin : Within { s₀ with pool := s₀.pool.push } s s₀ { s with pool } :=
    .of_pop (fun r hr => RegisterPool.mem_live_push.2 hr) hpop
  intro l hl
  have hl : Piece.line l ∈ code₁ := by simpa using hl
  exact (hbody hlowered).line hwithin (fun v hv => hv) (fun f hf => hf)
    (fun piece hpiece => List.mem_append_left _ hpiece) hl

theorem fits_call {f : FunctionHead} {args : List Resolved.Expr} :
    StmtFits ctx table outer (.call pos f args) := by
  intro own s₀ s₁ code h
  cases Context.lowers_of_stmt h.lowered with
  | @call _ _ _ _ _ origin _ pool₂ xs pool₁ hlower hrelease =>
    have htakes := ExprContext.takes_of_lowerAll hlower
    have htakes' := Value.takes_of_releaseAll htakes hrelease
    have hnoted : Noted s₀ { s₀ with
        pool := pool₂
        liveAtCalls := s₀.liveAtCalls ++ [(f.name, pool₁.live)] } [f.name] f.name pool₁.live :=
      ⟨List.mem_singleton.2 rfl, List.mem_append_right _ (List.mem_singleton.2 rfl),
        fun r hr => htakes.mem_live.2 (Or.inl hr)⟩
    intro l hl
    simp only [List.cons_append, List.mem_cons, List.mem_append, reduceCtorEq, List.not_mem_nil,
      or_false, false_or] at hl
    rcases hl with (hl | hl) | hl
    · exact fits_of_computes (ExprContext.computes_of_lowerAll hlower)
        (fun r hr => Value.used_of_releaseAll hrelease ▸ hr) hl _
    · obtain ⟨i, x, hx, heq⟩ := mem_argumentMoves hl
      cases heq
      refine .argument f.name i x pool₁.live origin hnoted ?_
      refine ExprContext.live_of_lowerAll hlower (fun e he v hv r hr => ?_) x hx
      exact h.live_of_lookup (fun e he => he) (h.visible e he v hv) hr
    · cases hl
      exact .call f.name pool₁.live origin hnoted

theorem fits_loop (hbody : StmtsFit ctx table outer body) :
    StmtFits ctx table outer (.loop pos body) := by
  intro own s₀ s₁ code h
  obtain ⟨memory, log, start, origin, code₁, s, rs, pool, hlowered, hpop, rfl, rfl⟩ := h.loop
  have hwithin : Within { s₀ with pool := s₀.pool.push, loops := s₀.loops + 1, memory, log } s s₀
      { s with pool } :=
    .of_pop (fun r hr => RegisterPool.mem_live_push.2 hr) hpop
  intro l hl
  simp only [List.cons_append, List.nil_append, List.mem_cons, List.mem_append, reduceCtorEq,
    List.not_mem_nil, or_false, false_or] at hl
  rcases hl with hl | hl
  · exact (hbody hlowered).line hwithin (fun v hv => hv) (fun f hf => hf)
      (fun piece hpiece => by simp [hpiece]) hl
  · cases hl
    exact .jump start origin (by simp)

theorem fits_ifThen (hbody : StmtsFit ctx table outer body) :
    StmtFits ctx table outer (.ifThen pos e body) := by
  intro own s₀ s₁ code h
  obtain ⟨finish, origin, x, code₁, pool₁, pool₂, code₂, s, rs, pool₃, hlower, htakes, hused,
    hlowered, hpop, rfl, rfl⟩ := h.ifThen
  have hwithin : Within { s₀ with pool := pool₂.push, conditionals := s₀.conditionals + 1 } s s₀
      { s with pool := pool₃ } :=
    .of_pop (fun r hr => htakes.live_push hr) hpop
  have heffect := Context.effect_of_stmts body hlowered.lowered
  intro l hl
  simp only [List.cons_append, List.mem_cons, List.mem_append, reduceCtorEq, List.not_mem_nil,
    or_false, false_or] at hl
  rcases hl with (hl | hl) | hl
  · exact fits_of_computes (ExprContext.computes_of_lower hlower)
      (fun r hr => hwithin.used r (heffect.mem_used (hused r hr))) hl _
  · cases hl
    exact .branch x finish origin (by simp)
  · exact (hbody hlowered).line hwithin (fun v hv => hv) (fun f hf => hf)
      (fun piece hpiece => by simp [hpiece]) hl

theorem fits_ifElse (hthen : StmtsFit ctx table outer thenBody)
    (helse : StmtsFit ctx table outer elseBody) :
    StmtFits ctx table outer (.ifElse pos e thenBody elseBody) := by
  intro own s₀ s₁ code h
  obtain ⟨middle, finish, origin, origin', x, code₁, pool₁, pool₂, code₂, s, rs, pool₃, code₃, s',
    rs', pool₄, hlower, htakes, hused, hlowered, hpop, htakes', hlowered', hpop', rfl,
    rfl⟩ := h.ifElse
  have hthenEffect := Context.effect_of_stmts thenBody hlowered.lowered
  have helseEffect := Context.effect_of_stmts elseBody hlowered'.lowered
  have helseWithin : Within { s with pool := pool₃.push } s' s₀ { s' with pool := pool₄ } :=
    .of_pop (fun r hr => htakes'.live_push hr) hpop'
  have hthenWithin : Within { s₀ with pool := pool₂.push, conditionals := s₀.conditionals + 1 } s
      s₀ { s' with pool := pool₄ } := by
    refine ⟨fun r hr => htakes.live_push hr, fun r hr => ?_, fun e he => ?_, fun e he => ?_⟩
    · exact helseWithin.used r (helseEffect.mem_used (RegisterPool.used_of_pop hpop ▸ hr))
    · exact helseWithin.homes e (helseEffect.mem_homes he)
    · exact helseWithin.calls e (helseEffect.mem_calls he)
  intro l hl
  simp only [List.cons_append, List.mem_cons, List.mem_append, reduceCtorEq, List.not_mem_nil,
    or_false, false_or] at hl
  rcases hl with (((hl | hl) | hl) | hl) | hl
  · exact fits_of_computes (ExprContext.computes_of_lower hlower)
      (fun r hr => hthenWithin.used r (hthenEffect.mem_used (hused r hr))) hl _
  · cases hl
    exact .branch x middle origin (by simp)
  · exact (hthen hlowered).line hthenWithin
      (fun v hv => List.mem_append_left _ hv) (fun f hf => by simp [Resolved.Stmt.calls, hf])
      (fun piece hpiece => by simp [hpiece]) hl
  · cases hl
    exact .jump finish origin' (by simp)
  · exact (helse hlowered').line helseWithin
      (fun v hv => List.mem_append_right _ hv) (fun f hf => by simp [Resolved.Stmt.calls, hf])
      (fun piece hpiece => by simp [hpiece]) hl

theorem fits_read {device : Resolved.Device} {property : String} {targetPos : Position} :
    StmtFits ctx table outer (.read pos device property targetPos v) := by
  intro own s₀ s₁ code h
  cases Context.lowers_of_stmt h.lowered with
  | read r hhome =>
    intro l hl
    simp only [List.mem_cons, reduceCtorEq, List.not_mem_nil, or_false, false_or] at hl
    cases hl
    exact .load r _ _ _ (Or.inr ⟨v, List.mem_singleton.2 rfl, mem_of_lookup hhome⟩)

theorem fits_write {device : Resolved.Device} {property : String} :
    StmtFits ctx table outer (.write pos e device property) := by
  intro own s₀ s₁ code h
  cases Context.lowers_of_stmt h.lowered with
  | write _ hlower hrelease =>
    intro l hl
    simp only [List.cons_append, List.mem_cons, List.mem_append, reduceCtorEq, List.not_mem_nil,
      or_false, false_or] at hl
    rcases hl with hl | hl
    · exact fits_of_computes (ExprContext.computes_of_lower hlower)
        (fun r hr => Value.used_of_release hrelease ▸ hr) hl _
    · cases hl
      exact .store _ _ _ _

theorem fits_yield : StmtFits ctx table outer (.yield pos) := by
  intro own s₀ s₁ code h
  cases Context.lowers_of_stmt h.lowered with
  | yield =>
    intro l hl
    simp only [List.mem_cons, reduceCtorEq, List.not_mem_nil, or_false] at hl
    cases hl
    exact .yield _

theorem fits_nil : StmtsFit ctx table outer [] := by
  intro own s₀ s₁ code h
  obtain ⟨rfl, -⟩ := Context.stmts_nil_eq_ok h.lowered
  intro l hl
  cases hl

theorem fits_cons (hst : StmtFits ctx table outer st) (hsts : StmtsFit ctx table outer sts) :
    StmtsFit ctx table outer (st :: sts) := by
  intro own s₀ s₁ code h
  obtain ⟨code₁, s, code₂, h₁, h₂, rfl⟩ := h.cons
  have heffect := Context.effect_of_stmt st h₁.lowered
  intro l hl
  rcases List.mem_append.1 hl with hl | hl
  · exact (hst h₁).line (.first (Context.effect_of_stmts sts h₂.lowered))
      (fun v hv => List.mem_append_left _ hv) (fun f hf => by simp [Resolved.Stmt.callsAll, hf])
      (fun piece hpiece => List.mem_append_left _ hpiece) hl
  · exact (hsts h₂).line (.last fun r hr => heffect.mem_live hr)
      (fun v hv => List.mem_append_right _ hv) (fun f hf => by simp [Resolved.Stmt.callsAll, hf])
      (fun piece hpiece => List.mem_append_right _ hpiece) hl

end Statements

mutual

/-- The lines of a statement. -/
theorem fits_of_stmt : ∀ st : Resolved.Stmt, StmtFits ctx table outer st
  | .define .. => fits_define
  | .assign .. => fits_assign
  | .block body => fits_block (fits_of_stmts body)
  | .call .. => fits_call
  | .loop _ body => fits_loop (fits_of_stmts body)
  | .ifThen _ _ body => fits_ifThen (fits_of_stmts body)
  | .ifElse _ _ thenBody elseBody => fits_ifElse (fits_of_stmts thenBody) (fits_of_stmts elseBody)
  | .read .. => fits_read
  | .write .. => fits_write
  | .yield _ => fits_yield

/-- The lines of statements. -/
theorem fits_of_stmts : ∀ sts : List Resolved.Stmt, StmtsFit ctx table outer sts
  | [] => fits_nil
  | st :: sts => fits_cons (fits_of_stmt st) (fits_of_stmts sts)

end

/-- The lines of the top level. -/
theorem fits_of_items {is : List Resolved.Item}
    (h : LoweredItems ctx table own is s₀ code s₁) :
    Code.Fits (Written s₀ s₁ (Resolved.Stmt.targetsAll (is.filterMap Resolved.Item.stmt?)))
      (Noted s₀ s₁
        ((Resolved.Stmt.callsAll none (is.filterMap Resolved.Item.stmt?)).map (·.callee)))
      code := by
  induction is generalizing own s₀ code with
  | nil =>
    obtain ⟨rfl, -⟩ := Context.items_nil_eq_ok h.lowered
    intro l hl
    cases hl
  | cons i is ih =>
    obtain ⟨code₁, s, code₂, rfl, ⟨st, rfl, h₁, h₂⟩ | ⟨hnone, ⟨devices, rfl⟩, hcode, h₂⟩⟩ := h.cons
    · have heffect := Context.effect_of_stmt st h₁.lowered
      intro l hl
      rcases List.mem_append.1 hl with hl | hl
      · exact (fits_of_stmt st h₁).line (.first (Context.effect_of_items h₂.lowered))
          (fun v hv => List.mem_append_left _ hv)
          (fun f hf => by simp [Resolved.Item.stmt?, Resolved.Stmt.callsAll, hf])
          (fun piece hpiece => List.mem_append_left _ hpiece) hl
      · exact (ih h₂).line (.last fun r hr => heffect.mem_live hr)
          (fun v hv => List.mem_append_right _ hv)
          (fun f hf => by simp [Resolved.Item.stmt?, Resolved.Stmt.callsAll, hf])
          (fun piece hpiece => List.mem_append_right _ hpiece) hl
    · rw [List.filterMap_cons_none hnone]
      intro l hl
      rcases List.mem_append.1 hl with hl | hl
      · rcases hcode with rfl | ⟨origin, name, slot, rfl⟩
        · simp at hl
        · simp only [List.mem_cons, reduceCtorEq, List.not_mem_nil, or_false] at hl
          cases hl
          exact .nameDevice name slot origin
      · exact (ih h₂).line (.last fun r hr => hr) (fun v hv => hv) (fun f hf => hf)
          (fun piece hpiece => List.mem_append_right _ hpiece) hl

end Chipwright.Lowering
