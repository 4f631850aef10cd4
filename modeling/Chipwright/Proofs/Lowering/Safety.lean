import Chipwright.Proofs.Lowering.Outcomes
import Chipwright.Proofs.Lowering.Visibility
import Chipwright.Proofs.Resolved.Yield

/-!
# Lowering fails at limits only

A program can need more registers, more lines or more names for a slot than there are, and a
loop may have to yield. Nothing else makes lowering fail: a variable that is used has a register,
what is given back was taken in the same frame, and a frame that is closed was opened before.
-/
namespace Chipwright

/-- A limit of the chip, or one that the options set, is exceeded. -/
def Failure.isLimit : Failure → Bool
  | .diagnostic d =>
    match d.cause with
    | .outOfRegisters _ _ => true
    | .slotConflict _ _ _ => true
    | .tooManyLines _ _ _ => true
    | .missingYield => true
    | _ => false
  | _ => false

/-- A step fails at limits only. -/
def Safe {α : Type} (x : Except Failure α) : Prop := ∀ e, x = .error e → e.isLimit = true

namespace Safe

variable {α β : Type} {x : Except Failure α}

theorem ok (a : α) : Safe (.ok a : Except Failure α) := by
  intro e h
  cases h

theorem of_eq_ok {a : α} (h : x = .ok a) : Safe x := h ▸ ok a

theorem bind {f : α → Except Failure β} (hx : Safe x) (hf : ∀ a, x = .ok a → Safe (f a)) :
    Safe (x >>= f) := by
  intro e h
  cases hresult : x with
  | error e' =>
    rw [hresult] at h
    cases h
    exact hx e hresult
  | ok a =>
    rw [hresult] at h
    exact hf a hresult e h

end Safe

theorem RegisterPool.safe_allocate (construct : String) (location : Option Location)
    (p : RegisterPool) : Safe (p.allocate construct location) := by
  intro e h
  unfold allocate at h
  split at h <;> cases h
  rfl

theorem DeviceTable.safe_bind (name : String) (slot : Slot) (location : Option Location)
    (t : DeviceTable) : Safe (t.bind name slot location) := by
  intro e h
  unfold DeviceTable.bind at h
  split at h <;> cases h
  rfl

namespace Lowering

/-! ### Expressions -/

namespace Value

variable {p q : RegisterPool}

/-- A value can be given back in the frame that it was taken in. -/
theorem safe_release {x : Value} {xs ys : List Register} (h : p.Takes (xs ++ x.taken ++ ys) q) :
    Safe (x.release q) := by
  cases x with
  | immediate c => exact .ok _
  | home r => exact .ok _
  | scratch r =>
    have hmem : r ∈ q.innermost := by simp [h.innermost, taken]
    exact .of_eq_ok (RegisterPool.release_eq_ok.2 ⟨hmem, rfl⟩)

theorem safe_releaseAll {values : List Value} (h : p.Takes (values.flatMap taken) q) :
    Safe (releaseAll q values) := by
  induction values generalizing q with
  | nil => exact .ok _
  | cons x values ih =>
    have h' : p.Takes ([] ++ x.taken ++ values.flatMap taken) q := by simpa using h
    exact (safe_release h').bind fun q' hq' => ih (takes_of_release h' hq')

end Value

namespace ExprContext

variable {pool : RegisterPool}

variable {ctx : ExprContext}

theorem safe_result (target : Option Register) (pool : RegisterPool) :
    Safe (ctx.result target pool) := by
  cases target with
  | some r => exact .ok _
  | none => exact (RegisterPool.safe_allocate _ _ _).bind fun _ _ => .ok _

theorem safe_lower {e : Resolved.Expr} {target : Option Register}
    (hvars : ctx.homes.Covers e.vars) : Safe (ctx.lower e target pool) := by
  induction e generalizing target pool with
  | literal pos c => exact .ok _
  | const pos c => exact .ok _
  | var pos v =>
    obtain ⟨r, hr⟩ := hvars.exists_lookup (List.mem_singleton.2 rfl)
    exact (Safe.of_eq_ok (Homes.get_eq_ok.2 hr)).bind fun _ _ => .ok _
  | not pos e ih =>
    refine (ih hvars).bind fun ⟨x, code₁, pool₁⟩ hx => ?_
    have htakes : pool.Takes ([] ++ x.taken ++ []) pool₁ := by simpa using takes_of_lower hx
    exact (Value.safe_release htakes).bind fun pool₂ _ =>
      (safe_result target pool₂).bind fun _ _ => .ok _
  | binary op left right ihl ihr =>
    have hleft : ctx.homes.Covers left.vars := hvars.subset fun v hv => List.mem_append_left _ hv
    have hright : ctx.homes.Covers right.vars :=
      hvars.subset fun v hv => List.mem_append_right _ hv
    refine (ihl hleft).bind fun ⟨x, code₁, pool₁⟩ hx => ?_
    refine (ihr hright).bind fun ⟨y, code₂, pool₂⟩ hy => ?_
    have htakes : pool.Takes ([] ++ x.taken ++ y.taken) pool₂ := by
      simpa using (takes_of_lower hx).trans (takes_of_lower hy)
    refine (Value.safe_release htakes).bind fun pool₃ hpool₃ => ?_
    have htakes₃ : pool.Takes ([] ++ y.taken ++ []) pool₃ := by
      simpa using Value.takes_of_release htakes hpool₃
    exact (Value.safe_release htakes₃).bind fun pool₄ _ =>
      (safe_result target pool₄).bind fun _ _ => .ok _

theorem safe_lowerAll {es : List Resolved.Expr} (hvars : ∀ e ∈ es, ctx.homes.Covers e.vars) :
    Safe (ctx.lowerAll es pool) := by
  induction es generalizing pool with
  | nil => exact .ok _
  | cons e es ih =>
    refine (safe_lower (hvars e (List.mem_cons_self ..))).bind fun ⟨x, code₁, pool₁⟩ _ => ?_
    exact (ih fun e' he' => hvars e' (List.mem_cons_of_mem _ he')).bind fun _ _ => .ok _

theorem safe_lowerInto {e : Resolved.Expr} {r : Register} (hvars : ctx.homes.Covers e.vars) :
    Safe (ctx.lowerInto e r pool) := by
  refine (safe_lower hvars).bind fun ⟨x, code, pool'⟩ hx => ?_
  change Safe (if x.operand = .register r then _ else _)
  split
  · exact .ok _
  · exact (Safe.of_eq_ok (release_of_taken_eq_nil (taken_of_lower_some hx))).bind fun _ _ => .ok _

end ExprContext

/-! ### Steps -/

/-- A loop of the program is too deep to be searched for a `yield`. -/
def Context.HasDeepLoop (ctx : Context) : Prop :=
  ∃ l ∈ ctx.resolved.loops, ctx.resolved.Deep ctx.options.limits.search (.block l.body)

/-- A step fails at limits only, if it is taken in a state: those of the chip and of the options,
and that of the search for a `yield`. -/
def Lower.Safe {α : Type} (x : Lower α) (ctx : Context) (s : State) : Prop :=
  ∀ e s', x s = .error e s' → e.isLimit = true ∨ e = .tooDeep ∧ ctx.HasDeepLoop

namespace Lower.Safe

variable {α β : Type} {x : Lower α} {ctx : Context} {s : State}

theorem bind {f : α → Lower β} (hx : x.Safe ctx s)
    (hf : ∀ a s', x s = .ok a s' → (f a).Safe ctx s') : (x >>= f).Safe ctx s := by
  intro e s' h
  change EStateM.bind x f s = .error e s' at h
  unfold EStateM.bind at h
  split at h
  · rename_i a s₁ hresult
    exact hf a s₁ hresult e s' h
  · rename_i e' s₁ hresult
    cases h
    exact hx e s' hresult

theorem pure (a : α) : (Pure.pure a : Lower α).Safe ctx s := by
  intro e s' h
  cases h

theorem get_state : (get : Lower State).Safe ctx s := by
  intro e s' h
  cases h

theorem modify_state (f : State → State) : (modify f : Lower Unit).Safe ctx s := by
  intro e s' h
  cases h

theorem ofExcept {y : Except Failure α} (h : Chipwright.Safe y) :
    (Lower.ofExcept y).Safe ctx s := by
  intro e s' heq
  cases y with
  | ok a => cases heq
  | error e' =>
    cases heq
    exact Or.inl (h e rfl)

theorem onPool {f : State → Except Failure (α × RegisterPool)} (h : Chipwright.Safe (f s)) :
    (Lower.onPool f).Safe ctx s := by
  intro e s' heq
  unfold Lower.onPool at heq
  split at heq
  · cases heq
  · next e' herror =>
    cases heq
    exact Or.inl (h e herror)

theorem framed (hx : x.Safe ctx { s with pool := s.pool.push })
    (htakes : ∀ a s', x { s with pool := s.pool.push } = .ok a s' →
      ∃ rs, s.pool.push.Takes rs s'.pool) : (Lower.framed x).Safe ctx s := by
  refine (onPool (.ok _)).bind fun _ s₁ hs₁ => ?_
  obtain ⟨_, hpush, rfl⟩ := Lower.onPool_eq_ok.1 hs₁
  cases hpush
  refine hx.bind fun a s₂ hs₂ => onPool (Chipwright.Safe.bind ?_ fun _ _ => .ok _)
  obtain ⟨rs, hrs⟩ := htakes a s₂ hs₂
  have houter : s₂.pool.outer = s.pool.innermost :: s.pool.outer := hrs.outer
  intro e h
  rw [RegisterPool.pop, houter] at h
  cases h

end Lower.Safe

namespace Context

variable {origin : Origin} {e : Resolved.Expr}

variable {ctx : Context} {s : State}

open Lower.Safe

theorem safe_allocate (construct : String) (pos : Position) :
    (ctx.allocate construct pos).Safe ctx s :=
  .onPool (RegisterPool.safe_allocate _ _ _)

theorem safe_home (v : Variable) : (ctx.home v).Safe ctx s :=
  (safe_allocate _ _).bind fun _ _ _ => (modify_state _).bind fun _ _ _ => .pure _

theorem safe_homeOf {v : Variable} (hv : s.homes.Covers [v]) : (homeOf v).Safe ctx s := by
  refine get_state.bind fun s₁ s₂ hs₁ => ?_
  obtain ⟨rfl, rfl⟩ := Lower.get_eq_ok.1 hs₁
  obtain ⟨r, hr⟩ := hv.exists_lookup (List.mem_singleton.2 rfl)
  exact Lower.Safe.ofExcept (.of_eq_ok (Homes.get_eq_ok.2 hr))

theorem safe_expr (hvars : s.homes.Covers e.vars) : (ctx.expr origin e).Safe ctx s :=
  .onPool ((ExprContext.safe_lower hvars).bind fun _ _ => .ok _)

theorem safe_exprs {es : List Resolved.Expr} (hvars : ∀ e ∈ es, s.homes.Covers e.vars) :
    (ctx.exprs origin es).Safe ctx s :=
  .onPool ((ExprContext.safe_lowerAll hvars).bind fun _ _ => .ok _)

theorem safe_exprInto {r : Register} (hvars : s.homes.Covers e.vars) :
    (ctx.exprInto origin e r).Safe ctx s :=
  .onPool (ExprContext.safe_lowerInto hvars)

theorem safe_releaseAll {p : RegisterPool} {xs : List Value}
    (h : p.Takes (xs.flatMap Value.taken) s.pool) : (releaseAll xs).Safe ctx s :=
  .onPool ((Value.safe_releaseAll h).bind fun _ _ => .ok _)

/-- A search fails only where the loop is too deep. -/
theorem safe_search (hp : ctx.resolved.WellScoped) {l : Resolved.Loop}
    (hl : l ∈ ctx.resolved.loops) : (ctx.search l.body).Safe ctx s := by
  refine get_state.bind fun s₁ _ _ => Lower.Safe.bind ?_ fun _ _ _ =>
    (modify_state _).bind fun _ _ _ => .pure _
  intro e s' h
  cases hsearch : ctx.resolved.search ctx.options.limits.search (.block l.body) s₁.memory with
  | ok r =>
    rw [hsearch] at h
    cases h
  | error e' =>
    rw [hsearch] at h
    cases h
    exact Or.inr ((Resolved.Program.failsOnly_search hp (hp.knows_loop hl) _ e hsearch).imp_right
      fun hdeep => ⟨l, hl, hdeep⟩)

theorem safe_checkLoop (hp : ctx.resolved.WellScoped) {l : Resolved.Loop}
    (hl : l ∈ ctx.resolved.loops) : (ctx.checkLoop l.pos l.body).Safe ctx s := by
  refine (safe_search hp hl).bind fun found _ _ => ?_
  split
  · exact .pure _
  · split
    · intro e s' h
      cases h
      exact Or.inl rfl
    · exact modify_state _

theorem safe_nextLoop : Lower.nextLoop.Safe ctx s := by
  intro e s' h
  cases h

theorem safe_nextConditional : Lower.nextConditional.Safe ctx s := by
  intro e s' h
  cases h

/-! ### Statements -/

/-- A value that is given back at once. -/
theorem safe_expr_bind {α : Type} {next : Value × Code → Lower α} (hvars : s.homes.Covers e.vars)
    (hnext : ∀ x pool, (next x).Safe ctx { s with pool }) :
    (do
      let x ← ctx.expr origin e
      releaseAll [x.1]
      next x).Safe ctx s := by
  refine (safe_expr hvars).bind fun ⟨x, code⟩ s₁ hexpr => ?_
  obtain ⟨pool₁, hlower, rfl⟩ := expr_eq_ok hexpr
  have htakes : s.pool.Takes ([x].flatMap Value.taken) pool₁ := by
    simpa using ExprContext.takes_of_lower hlower
  refine (safe_releaseAll htakes).bind fun u s₂ hrelease => ?_
  obtain ⟨pool₂, hfree, rfl⟩ := releaseAll_eq_ok hrelease
  exact hnext (x, code) pool₂

theorem safe_framed_stmts {body : List Resolved.Stmt}
    (h : (ctx.stmts body).Safe ctx { s with pool := s.pool.push }) :
    (Lower.framed (ctx.stmts body)).Safe ctx s :=
  h.framed fun _ _ hbody => (effect_of_stmts body hbody).takes

mutual

theorem safe_stmt (hp : ctx.resolved.WellScoped) :
    ∀ (st : Resolved.Stmt) {outer own : List Variable} {s : State},
      (∀ l ∈ Resolved.Stmt.loops [st], l ∈ ctx.resolved.loops) → st.Scoped outer own →
      s.homes.Covers (own ++ outer) → (ctx.stmt st).Safe ctx s
  | .define pos v e, outer, own, s, hloops, hscoped, hcovers => by
    rw [stmt]
    refine (safe_home v).bind fun r s₁ hr => ?_
    obtain ⟨construct, location, pool, -, rfl⟩ := home_eq_ok hr
    have hvars : s.homes.Covers e.vars := hcovers.subset hscoped
    exact (safe_exprInto (hvars.mono fun _ he => List.mem_cons_of_mem _ he)).bind
      fun _ _ _ => .pure _
  | .assign pos v e, outer, own, s, hloops, hscoped, hcovers => by
    rw [stmt]
    have hv : s.homes.Covers [v] :=
      hcovers.subset fun w hw => List.mem_singleton.1 hw ▸ hscoped.2
    refine (safe_homeOf hv).bind fun r s₁ hr => ?_
    obtain ⟨-, rfl⟩ := homeOf_eq_ok hr
    exact (safe_exprInto (hcovers.subset hscoped.1)).bind fun _ _ _ => .pure _
  | .block body, outer, own, s, hloops, hscoped, hcovers => by
    rw [Resolved.Stmt.loops_block] at hloops
    rw [stmt]
    exact (safe_framed_stmts (safe_stmts hp body hloops hscoped hcovers)).bind fun _ _ _ => .pure _
  | .call pos f args, outer, own, s, hloops, hscoped, hcovers => by
    rw [stmt, call]
    refine Lower.Safe.bind ?_ fun _ _ _ => .pure _
    refine (safe_exprs fun e he => hcovers.subset (hscoped e he)).bind fun ⟨xs, code⟩ s₁ hargs => ?_
    obtain ⟨pool₁, hlower, rfl⟩ := exprs_eq_ok hargs
    refine (modify_state _).bind fun _ s₂ hs₂ => ?_
    obtain rfl := Lower.modify_eq_ok.1 hs₂
    exact (safe_releaseAll (ExprContext.takes_of_lowerAll hlower)).bind fun _ _ _ => .pure _
  | .loop pos body, outer, own, s, hloops, hscoped, hcovers => by
    rw [Resolved.Stmt.loops_loop] at hloops
    obtain ⟨hloop, hloops⟩ := List.forall_mem_cons.1 hloops
    simp only [stmt]
    refine (safe_checkLoop hp hloop).bind fun _ s₁ hcheck => safe_nextLoop.bind fun n s₂ hn => ?_
    obtain ⟨memory, log, rfl⟩ := checkLoop_eq_ok hcheck
    obtain ⟨-, rfl⟩ := Lower.nextLoop_eq_ok.1 hn
    refine (safe_framed_stmts (safe_stmts hp body hloops hscoped ?_)).bind fun _ _ _ => .pure _
    exact hcovers
  | .ifThen pos e body, outer, own, s, hloops, hscoped, hcovers => by
    rw [Resolved.Stmt.loops_ifThen] at hloops
    simp only [stmt]
    refine safe_nextConditional.bind fun n s₁ hn => ?_
    obtain ⟨-, rfl⟩ := Lower.nextConditional_eq_ok.1 hn
    refine safe_expr_bind ?_ fun x pool => ?_
    · exact hcovers.subset hscoped.1
    refine (safe_framed_stmts (safe_stmts hp body hloops hscoped.2 ?_)).bind fun _ _ _ => .pure _
    exact hcovers
  | .ifElse pos e thenBody elseBody, outer, own, s, hloops, hscoped, hcovers => by
    rw [Resolved.Stmt.loops_ifElse] at hloops
    obtain ⟨hthenLoops, helseLoops⟩ := List.forall_mem_append.1 hloops
    simp only [stmt]
    refine safe_nextConditional.bind fun n s₁ hn => ?_
    obtain ⟨-, rfl⟩ := Lower.nextConditional_eq_ok.1 hn
    refine safe_expr_bind ?_ fun x pool => ?_
    · exact hcovers.subset hscoped.1
    refine Lower.Safe.bind (safe_framed_stmts (safe_stmts hp thenBody hthenLoops hscoped.2.1 ?_))
      fun code₁ s₂ hthen => ?_
    · exact hcovers
    obtain ⟨s₃, rs, pool₃, hbody, -, rfl⟩ := Lower.framed_eq_ok.1 hthen
    refine Lower.Safe.bind (safe_framed_stmts (safe_stmts hp elseBody helseLoops hscoped.2.2 ?_))
      fun _ _ _ => .pure _
    exact hcovers.mono fun _ he => (effect_of_stmts thenBody hbody).mem_homes he
  | .read pos device property targetPos v, outer, own, s, hloops, hscoped, hcovers => by
    simp only [stmt]
    have hv : s.homes.Covers [v] := hcovers.subset fun w hw => List.mem_singleton.1 hw ▸ hscoped
    exact (safe_homeOf hv).bind fun _ _ _ => .pure _
  | .write pos e device property, outer, own, s, hloops, hscoped, hcovers => by
    simp only [stmt]
    refine safe_expr_bind ?_ fun _ _ => .pure _
    exact hcovers.subset hscoped
  | .yield pos, outer, own, s, hloops, hscoped, hcovers => by
    simp only [stmt]
    exact .pure _

/-- Statements that use variables where they are visible fail at limits only. -/
theorem safe_stmts (hp : ctx.resolved.WellScoped) :
    ∀ (sts : List Resolved.Stmt) {outer own : List Variable} {s : State},
      (∀ l ∈ Resolved.Stmt.loops sts, l ∈ ctx.resolved.loops) →
      Resolved.Stmt.AllScoped outer own sts → s.homes.Covers (own ++ outer) →
        (ctx.stmts sts).Safe ctx s
  | [], outer, own, s, hloops, hscoped, hcovers => by
    rw [stmts]
    exact .pure _
  | st :: sts, outer, own, s, hloops, hscoped, hcovers => by
    rw [Resolved.Stmt.loops_cons] at hloops
    obtain ⟨hfirst, hrest⟩ := List.forall_mem_append.1 hloops
    rw [stmts]
    refine (safe_stmt hp st hfirst hscoped.1 hcovers).bind fun code₁ s₁ h₁ => ?_
    have hcovers' : s₁.homes.Covers ((st.defines ++ own) ++ outer) := by
      rw [List.append_assoc]
      exact hcovers.of_effect (effect_of_stmt st h₁)
    exact (safe_stmts hp sts hrest hscoped.2 hcovers').bind fun _ _ _ => .pure _

end

theorem safe_item {i : Resolved.Item} (hi : i.stmt? = none) : (ctx.item i).Safe ctx s := by
  cases i with
  | nameSlot pos slotPos d =>
    rw [item]
    refine get_state.bind fun s₁ _ _ => ?_
    refine (Lower.Safe.ofExcept (DeviceTable.safe_bind _ _ _ s₁.devices)).bind fun _ _ _ => ?_
    refine (modify_state _).bind fun _ _ _ => ?_
    split
    · exact .pure _
    · exact .pure _
  | const c => exact .pure _
  | func f => exact .pure _
  | stmt st => cases hi

/-- The top level fails at limits only. -/
theorem safe_items (hp : ctx.resolved.WellScoped) {is : List Resolved.Item}
    {own : List Variable}
    (hloops : ∀ l ∈ Resolved.Stmt.loops (is.filterMap Resolved.Item.stmt?), l ∈ ctx.resolved.loops)
    (hscoped : Resolved.Stmt.AllScoped [] own (is.filterMap Resolved.Item.stmt?))
    (hcovers : s.homes.Covers own) : (ctx.items is).Safe ctx s := by
  induction is generalizing own s with
  | nil => exact .pure _
  | cons i is ih =>
    rw [items]
    cases hi : i.stmt? with
    | none =>
      rw [List.filterMap_cons_none hi] at hscoped hloops
      refine (safe_item hi).bind fun code₁ s₁ h₁ => ?_
      rcases item_eq_ok h₁ with ⟨st, rfl, -⟩ | ⟨-, ⟨devices, rfl⟩, -⟩
      · cases hi
      · refine Lower.Safe.bind (ih hloops hscoped ?_) fun _ _ _ => .pure _
        exact hcovers
    | some st =>
      rw [List.filterMap_cons_some hi] at hscoped hloops
      rw [Resolved.Stmt.loops_cons] at hloops
      obtain ⟨hfirst, hrest⟩ := List.forall_mem_append.1 hloops
      cases i <;> cases hi
      have hitem : (ctx.stmt st).Safe ctx s :=
        safe_stmt hp st hfirst hscoped.1 (by simpa using hcovers)
      refine hitem.bind fun code₁ s₁ h₁ => ?_
      have hcovers' := hcovers.of_effect (effect_of_stmt st h₁)
      exact (ih hrest hscoped.2 hcovers').bind fun _ _ _ => .pure _

end Context

end Lowering

end Chipwright
