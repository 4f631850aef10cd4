import Chipwright.Lowering.Program
import Chipwright.Proofs.Basics
import Chipwright.Proofs.Resolved.Variables

/-!
# What a step of lowering can do

A step of lowering that succeeds is taken apart into the steps that it is made of. `Lowers` says
what these are for each form of statement; nothing after this module unfolds the steps.
-/
namespace Chipwright.Lowering

variable {α β : Type}

namespace Lower

variable {s s' : State}

theorem bind_eq_ok {x : Lower α} {f : α → Lower β} {b : β} :
    (x >>= f) s = .ok b s' ↔ ∃ a s₁, x s = .ok a s₁ ∧ f a s₁ = .ok b s' := by
  change EStateM.bind x f s = .ok b s' ↔ _
  unfold EStateM.bind
  cases x s with
  | ok a s₁ =>
    constructor
    · intro h
      exact ⟨a, s₁, rfl, h⟩
    · rintro ⟨_, _, heq, h⟩
      cases heq
      exact h
  | error e s₁ => simp

theorem pure_eq_ok {a b : α} : (pure a : Lower α) s = .ok b s' ↔ a = b ∧ s = s' := by
  change EStateM.Result.ok a s = .ok b s' ↔ _
  simp

theorem get_eq_ok {a : State} : (get : Lower State) s = .ok a s' ↔ s = a ∧ s = s' := by
  change EStateM.Result.ok s s = .ok a s' ↔ _
  simp

theorem modify_eq_ok {f : State → State} {a : Unit} :
    (modify f : Lower Unit) s = .ok a s' ↔ f s = s' := by
  change EStateM.Result.ok () (f s) = .ok a s' ↔ _
  simp

theorem throw_eq_ok {e : Failure} {a : α} : (throw e : Lower α) s = .ok a s' ↔ False := by
  change EStateM.Result.error e s = .ok a s' ↔ _
  simp

theorem ofExcept_eq_ok {x : Except Failure α} {a : α} :
    ofExcept x s = .ok a s' ↔ x = .ok a ∧ s = s' := by
  cases x with
  | ok b => simp [ofExcept, pure_eq_ok]
  | error e => simp [ofExcept, throw_eq_ok]

theorem onPool_eq_ok {f : State → Except Failure (α × RegisterPool)} {a : α} :
    onPool f s = .ok a s' ↔ ∃ pool, f s = .ok (a, pool) ∧ s' = { s with pool } := by
  unfold onPool
  cases f s with
  | error e => simp
  | ok r =>
    obtain ⟨b, pool⟩ := r
    constructor
    · intro h
      cases h
      exact ⟨pool, rfl, rfl⟩
    · rintro ⟨_, heq, rfl⟩
      cases heq
      rfl

theorem log_eq_ok {level : Level} {message : String} {a : Unit} :
    log level message s = .ok a s' ↔ { s with log := s.log ++ [⟨level, message⟩] } = s' := by
  simp [log, modify_eq_ok]

theorem nextLoop_eq_ok {n : Nat} :
    nextLoop s = .ok n s' ↔ s.loops = n ∧ { s with loops := s.loops + 1 } = s' := by
  change EStateM.Result.ok s.loops { s with loops := s.loops + 1 } = .ok n s' ↔ _
  simp

theorem nextConditional_eq_ok {n : Nat} :
    nextConditional s = .ok n s' ↔
      s.conditionals = n ∧ { s with conditionals := s.conditionals + 1 } = s' := by
  change EStateM.Result.ok s.conditionals { s with conditionals := s.conditionals + 1 } =
    .ok n s' ↔ _
  simp

/-- A step in a frame of its own. -/
theorem framed_eq_ok {step : Lower α} {a : α} :
    framed step s = .ok a s' ↔ ∃ s₁ rs pool, step { s with pool := s.pool.push } = .ok a s₁ ∧
      s₁.pool.pop = .ok (rs, pool) ∧ s' = { s₁ with pool } := by
  simp only [framed, bind_eq_ok, onPool_eq_ok, Chipwright.bind_eq_ok]
  constructor
  · rintro ⟨_, _, ⟨_, hpush, rfl⟩, a', s₁, hstep, pool, ⟨⟨rs, _⟩, hpop, heq⟩, rfl⟩
    cases hpush
    cases heq
    exact ⟨s₁, rs, _, hstep, hpop, rfl⟩
  · rintro ⟨s₁, rs, pool, hstep, hpop, rfl⟩
    exact ⟨(), _, ⟨_, rfl, rfl⟩, a, s₁, hstep, pool, ⟨(rs, pool), hpop, rfl⟩, rfl⟩

end Lower

open Lower

theorem Homes.get_eq_ok {homes : Homes} {v : Variable} {r : Register} :
    homes.get v = .ok r ↔ homes.lookup v = some r := by
  unfold Homes.get
  cases homes.lookup v <;> simp

namespace Context

variable {pos : Position} {r : Register} {v : Variable} {origin : Origin} {e : Resolved.Expr}
  {body : List Resolved.Stmt}

variable {ctx : Context} {s s' : State} {code : Code}

theorem allocate_eq_ok {construct : String} :
    ctx.allocate construct pos s = .ok r s' ↔ ∃ pool,
      s.pool.allocate construct (some (pos.inFile ctx.file)) = .ok (r, pool) ∧
      s' = { s with pool } :=
  onPool_eq_ok

theorem home_eq_ok (h : ctx.home v s = .ok r s') :
    ∃ construct location pool, s.pool.allocate construct location = .ok (r, pool) ∧
      s' = { s with pool, homes := (v, r) :: s.homes } := by
  simp only [home, Lower.bind_eq_ok, allocate_eq_ok, modify_eq_ok, Lower.pure_eq_ok] at h
  obtain ⟨_, _, ⟨pool, hr, rfl⟩, _, _, rfl, rfl, rfl⟩ := h
  exact ⟨_, _, pool, hr, rfl⟩

theorem expr_eq_ok {x : Value} (h : ctx.expr origin e s = .ok (x, code) s') : ∃ pool,
      (ctx.exprContext origin s).lower e none s.pool = .ok (x, code, pool) ∧
      s' = { s with pool } := by
  obtain ⟨pool, hpool, rfl⟩ := onPool_eq_ok.1 h
  obtain ⟨_, hlower, heq⟩ := Chipwright.bind_eq_ok.1 hpool
  cases heq
  exact ⟨_, hlower, rfl⟩

theorem exprs_eq_ok {es : List Resolved.Expr} {xs : List Value}
    (h : ctx.exprs origin es s = .ok (xs, code) s') : ∃ pool,
      (ctx.exprContext origin s).lowerAll es s.pool = .ok (xs, code, pool) ∧
      s' = { s with pool } := by
  obtain ⟨pool, hpool, rfl⟩ := onPool_eq_ok.1 h
  obtain ⟨_, hlower, heq⟩ := Chipwright.bind_eq_ok.1 hpool
  cases heq
  exact ⟨_, hlower, rfl⟩

theorem exprInto_eq_ok (h : ctx.exprInto origin e r s = .ok code s') : ∃ pool,
      (ctx.exprContext origin s).lowerInto e r s.pool = .ok (code, pool) ∧
      s' = { s with pool } :=
  onPool_eq_ok.1 h

theorem releaseAll_eq_ok {xs : List Value} {a : Unit} (h : releaseAll xs s = .ok a s') :
    ∃ pool, Value.releaseAll s.pool xs = .ok pool ∧ s' = { s with pool } := by
  obtain ⟨pool, hpool, rfl⟩ := onPool_eq_ok.1 h
  obtain ⟨_, hrelease, heq⟩ := Chipwright.bind_eq_ok.1 hpool
  cases heq
  exact ⟨_, hrelease, rfl⟩

theorem homeOf_eq_ok (h : homeOf v s = .ok r s') : s.homes.get v = .ok r ∧ s' = s := by
  simp only [homeOf, Lower.bind_eq_ok, get_eq_ok, ofExcept_eq_ok] at h
  obtain ⟨_, _, ⟨rfl, rfl⟩, hget, rfl⟩ := h
  exact ⟨hget, rfl⟩

theorem search_eq_ok {found : Bool} (h : ctx.search body s = .ok found s') :
    ∃ memory, ctx.resolved.search ctx.options.limits.search (.block body) s.memory =
      .ok (found, memory) ∧ s' = { s with memory } := by
  simp only [search, Lower.bind_eq_ok, get_eq_ok, ofExcept_eq_ok, modify_eq_ok,
    Lower.pure_eq_ok] at h
  obtain ⟨_, _, ⟨rfl, rfl⟩, ⟨found', memory⟩, _, ⟨hsearch, rfl⟩, _, _, rfl, rfl, rfl⟩ := h
  exact ⟨memory, hsearch, rfl⟩

theorem checkLoop_eq_ok {a : Unit} (h : ctx.checkLoop pos body s = .ok a s') :
    ∃ memory log, s' = { s with memory, log } := by
  unfold checkLoop at h
  obtain ⟨found, _, hsearch, h⟩ := Lower.bind_eq_ok.1 h
  obtain ⟨memory, -, rfl⟩ := search_eq_ok hsearch
  split at h
  · rw [Lower.pure_eq_ok] at h
    exact ⟨memory, s.log, h.2.symm⟩
  · split at h
    · simp [Lower.bind_eq_ok, throw_eq_ok] at h
    · simp only [log_eq_ok] at h
      exact ⟨memory, _, h.symm⟩

/-! ## Statements -/

/-- How the forms of statements are lowered: the steps that each of them is made of, its code, and
the state after it. -/
inductive Lowers (ctx : Context) : Resolved.Stmt → State → Code → State → Prop
  | define {pos v e s construct location pool₁ note origin code pool₂} (r : Register)
      (hallocate : s.pool.allocate construct location = .ok (r, pool₁))
      (hlower : (⟨ctx.file, (v, r) :: s.homes, origin⟩ : ExprContext).lowerInto e r pool₁ =
        .ok (code, pool₂)) :
    Lowers ctx (.define pos v e) s (.note note :: code ++ [.finish])
      { s with pool := pool₂, homes := (v, r) :: s.homes }
  | assign {pos v e s note origin code pool} (r : Register) (hhome : s.homes.lookup v = some r)
      (hlower : (ctx.exprContext origin s).lowerInto e r s.pool = .ok (code, pool)) :
    Lowers ctx (.assign pos v e) s (.note note :: code ++ [.finish]) { s with pool }
  | block {body s code s₁ rs pool}
      (hbody : ctx.stmts body { s with pool := s.pool.push } = .ok code s₁)
      (hpop : s₁.pool.pop = .ok (rs, pool)) :
    Lowers ctx (.block body) s (code ++ [.finish]) { s₁ with pool }
  | call {pos f args s note origin code pool₂} (xs : List Value) (pool₁ : RegisterPool)
      (hargs : (ctx.exprContext origin s).lowerAll args s.pool = .ok (xs, code, pool₁))
      (hrelease : Value.releaseAll pool₁ xs = .ok pool₂) :
    Lowers ctx (.call pos f args) s
      (.note note :: code ++ argumentMoves origin f.name 0 xs ++
        [origin.line .jumpAndLink [.label (.function f.name)], .finish])
      { s with pool := pool₂, liveAtCalls := s.liveAtCalls ++ [(f.name, pool₁.live)] }
  | loop {pos body s memory log origin code s₁ rs pool}
      (hbody : ctx.stmts body
        { s with pool := s.pool.push, loops := s.loops + 1, memory, log } = .ok code s₁)
      (hpop : s₁.pool.pop = .ok (rs, pool)) :
    Lowers ctx (.loop pos body) s
      ([.label (.loop s.loops), .note "loop"] ++ code ++
        [Origin.line origin .jump [.label (.loop s.loops)], .finish])
      { s₁ with pool }
  | ifThen {pos e body s origin code pool₁ pool₂ code₁ s₁ rs pool₃} (x : Value)
      (hlower : (ctx.exprContext origin s).lower e none s.pool = .ok (x, code, pool₁))
      (hrelease : x.release pool₁ = .ok pool₂)
      (hbody : ctx.stmts body
        { s with pool := pool₂.push, conditionals := s.conditionals + 1 } = .ok code₁ s₁)
      (hpop : s₁.pool.pop = .ok (rs, pool₃)) :
    Lowers ctx (.ifThen pos e body) s
      (.note "if" :: code ++
        [origin.line .branchZero [x.operand, .label (.ifEnd s.conditionals)]] ++ code₁ ++
        [.label (.ifEnd s.conditionals), .finish])
      { s₁ with pool := pool₃ }
  | ifElse {pos e thenBody elseBody s origin origin' code pool₁ pool₂ code₁ s₁ rs pool₃ code₂ s₂
        rs' pool₄} (x : Value)
      (hlower : (ctx.exprContext origin s).lower e none s.pool = .ok (x, code, pool₁))
      (hrelease : x.release pool₁ = .ok pool₂)
      (hthen : ctx.stmts thenBody
        { s with pool := pool₂.push, conditionals := s.conditionals + 1 } = .ok code₁ s₁)
      (hpop : s₁.pool.pop = .ok (rs, pool₃))
      (helse : ctx.stmts elseBody { s₁ with pool := pool₃.push } = .ok code₂ s₂)
      (hpop' : s₂.pool.pop = .ok (rs', pool₄)) :
    Lowers ctx (.ifElse pos e thenBody elseBody) s
      (.note "if" :: code ++
        [origin.line .branchZero [x.operand, .label (.ifElse s.conditionals)]] ++ code₁ ++
        [Origin.line origin' .jump [.label (.ifEnd s.conditionals)],
          .label (.ifElse s.conditionals), .note "else"] ++ code₂ ++
        [.label (.ifEnd s.conditionals), .finish])
      { s₂ with pool := pool₄ }
  | read {pos device property targetPos v s note origin} (r : Register)
      (hhome : s.homes.lookup v = some r) :
    Lowers ctx (.read pos device property targetPos v) s
      [.note note,
        Origin.line origin .load [.register r, .device device.slot, .name property], .finish] s
  | write {pos e device property s note origin code pool₁ pool₂} (x : Value)
      (hlower : (ctx.exprContext origin s).lower e none s.pool = .ok (x, code, pool₁))
      (hrelease : x.release pool₁ = .ok pool₂) :
    Lowers ctx (.write pos e device property) s
      (.note note :: code ++
        [origin.line .store [.device device.slot, .name property, x.operand], .finish])
      { s with pool := pool₂ }
  | yield {pos : Position} {s : State} {origin : Origin} :
    Lowers ctx (.yield pos) s [Origin.line origin .yield [], .finish] s

/-- A value that is given back alone. -/
theorem releaseAll_singleton {x : Value} {pool : RegisterPool} :
    Value.releaseAll pool [x] = x.release pool := by
  simp only [Value.releaseAll]
  cases x.release pool <;> rfl

theorem lowers_of_stmt {st : Resolved.Stmt} (h : ctx.stmt st s = .ok code s') :
    ctx.Lowers st s code s' := by
  cases st <;> simp only [stmt, call, Lower.bind_eq_ok, Lower.pure_eq_ok, modify_eq_ok,
    framed_eq_ok, nextLoop_eq_ok, nextConditional_eq_ok] at h
  case define =>
    obtain ⟨r, _, hhome, code₁, _, hinto, rfl, rfl⟩ := h
    obtain ⟨construct, location, pool₁, hallocate, rfl⟩ := home_eq_ok hhome
    obtain ⟨pool₂, hlower, rfl⟩ := exprInto_eq_ok hinto
    exact .define r hallocate hlower
  case assign =>
    obtain ⟨r, _, hhome, code₁, _, hinto, rfl, rfl⟩ := h
    obtain ⟨hget, rfl⟩ := homeOf_eq_ok hhome
    obtain ⟨pool, hlower, rfl⟩ := exprInto_eq_ok hinto
    exact .assign r (Homes.get_eq_ok.1 hget) hlower
  case block =>
    obtain ⟨code₁, _, ⟨s₁, rs, pool, hbody, hpop, rfl⟩, rfl, rfl⟩ := h
    exact .block hbody hpop
  case call =>
    obtain ⟨_, _, ⟨⟨xs, code₁⟩, _, hargs, _, _, rfl, _, _, hrelease, rfl, rfl⟩, rfl, rfl⟩ := h
    obtain ⟨pool₁, hlower, rfl⟩ := exprs_eq_ok hargs
    obtain ⟨pool₂, hfree, rfl⟩ := releaseAll_eq_ok hrelease
    rw [List.append_assoc]
    exact .call xs pool₁ hlower hfree
  case loop =>
    obtain ⟨_, _, hcheck, _, _, ⟨rfl, rfl⟩, code₁, _, ⟨s₁, rs, pool, hbody, hpop, rfl⟩, rfl,
      rfl⟩ := h
    obtain ⟨memory, log, rfl⟩ := checkLoop_eq_ok hcheck
    exact .loop hbody hpop
  case ifThen =>
    obtain ⟨_, _, ⟨rfl, rfl⟩, ⟨x, code₁⟩, _, hexpr, _, _, hrelease, code₂, _,
      ⟨s₂, rs, pool₃, hbody, hpop, rfl⟩, rfl, rfl⟩ := h
    obtain ⟨pool₁, hlower, rfl⟩ := expr_eq_ok hexpr
    obtain ⟨pool₂, hfree, rfl⟩ := releaseAll_eq_ok hrelease
    exact .ifThen x hlower (releaseAll_singleton ▸ hfree) hbody hpop
  case ifElse =>
    obtain ⟨_, _, ⟨rfl, rfl⟩, ⟨x, code₁⟩, _, hexpr, _, _, hrelease, code₂, _,
      ⟨s₂, rs, pool₃, hthen, hpop, rfl⟩, code₃, _, ⟨s₃, rs', pool₄, helse, hpop', rfl⟩, rfl,
      rfl⟩ := h
    obtain ⟨pool₁, hlower, rfl⟩ := expr_eq_ok hexpr
    obtain ⟨pool₂, hfree, rfl⟩ := releaseAll_eq_ok hrelease
    exact .ifElse x hlower (releaseAll_singleton ▸ hfree) hthen hpop helse hpop'
  case read =>
    obtain ⟨r, _, hhome, rfl, rfl⟩ := h
    obtain ⟨hget, rfl⟩ := homeOf_eq_ok hhome
    exact .read r (Homes.get_eq_ok.1 hget)
  case write =>
    obtain ⟨⟨x, code₁⟩, _, hexpr, _, _, hrelease, rfl, rfl⟩ := h
    obtain ⟨pool₁, hlower, rfl⟩ := expr_eq_ok hexpr
    obtain ⟨pool₂, hfree, rfl⟩ := releaseAll_eq_ok hrelease
    exact .write x hlower (releaseAll_singleton ▸ hfree)
  case yield =>
    obtain ⟨rfl, rfl⟩ := h
    exact .yield

theorem stmts_nil_eq_ok (h : ctx.stmts [] s = .ok code s') : code = [] ∧ s' = s := by
  simp only [stmts, Lower.pure_eq_ok] at h
  exact ⟨h.1.symm, h.2.symm⟩

theorem stmts_cons_eq_ok {st : Resolved.Stmt} {sts : List Resolved.Stmt}
    (h : ctx.stmts (st :: sts) s = .ok code s') :
    ∃ code₁ s₁ code₂, ctx.stmt st s = .ok code₁ s₁ ∧ ctx.stmts sts s₁ = .ok code₂ s' ∧
      code = code₁ ++ code₂ := by
  simp only [stmts, Lower.bind_eq_ok, Lower.pure_eq_ok] at h
  obtain ⟨code₁, s₁, h₁, code₂, s₂, h₂, rfl, rfl⟩ := h
  exact ⟨code₁, s₁, code₂, h₁, h₂, rfl⟩

/-! ## The top level -/

/-- Apart from its statements, the top level gives nothing but names of devices. -/
theorem item_eq_ok {i : Resolved.Item} (h : ctx.item i s = .ok code s') :
    (∃ st, i = .stmt st ∧ ctx.stmt st s = .ok code s') ∨
      i.stmt? = none ∧ (∃ devices, s' = { s with devices }) ∧
        (code = [.finish] ∨ ∃ origin name slot,
          code = [Origin.line origin .nameDevice [.name name, .device slot], .finish]) := by
  cases i with
  | nameSlot pos slotPos d =>
    simp only [item, Lower.bind_eq_ok, get_eq_ok, ofExcept_eq_ok, modify_eq_ok] at h
    obtain ⟨_, _, ⟨rfl, rfl⟩, devices, _, ⟨-, rfl⟩, _, _, rfl, h⟩ := h
    split at h
    · obtain ⟨rfl, rfl⟩ := Lower.pure_eq_ok.1 h
      exact Or.inr ⟨rfl, ⟨devices, rfl⟩, Or.inr ⟨_, _, _, rfl⟩⟩
    · obtain ⟨rfl, rfl⟩ := Lower.pure_eq_ok.1 h
      exact Or.inr ⟨rfl, ⟨devices, rfl⟩, Or.inl rfl⟩
  | const c =>
    obtain ⟨rfl, rfl⟩ := Lower.pure_eq_ok.1 h
    exact Or.inr ⟨rfl, ⟨s.devices, rfl⟩, Or.inl rfl⟩
  | func f =>
    obtain ⟨rfl, rfl⟩ := Lower.pure_eq_ok.1 h
    exact Or.inr ⟨rfl, ⟨s.devices, rfl⟩, Or.inl rfl⟩
  | stmt st => exact Or.inl ⟨st, rfl, h⟩

theorem items_nil_eq_ok (h : ctx.items [] s = .ok code s') : code = [] ∧ s' = s := by
  simp only [items, Lower.pure_eq_ok] at h
  exact ⟨h.1.symm, h.2.symm⟩

theorem items_cons_eq_ok {i : Resolved.Item} {is : List Resolved.Item}
    (h : ctx.items (i :: is) s = .ok code s') :
    ∃ code₁ s₁ code₂, ctx.item i s = .ok code₁ s₁ ∧ ctx.items is s₁ = .ok code₂ s' ∧
      code = code₁ ++ code₂ := by
  simp only [items, Lower.bind_eq_ok, Lower.pure_eq_ok] at h
  obtain ⟨code₁, s₁, h₁, code₂, s₂, h₂, rfl, rfl⟩ := h
  exact ⟨code₁, s₁, code₂, h₁, h₂, rfl⟩

end Context

end Chipwright.Lowering
