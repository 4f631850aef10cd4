import Chipwright.Proofs.Lowering.Statement

/-!
# Registers of visible variables

Where a variable is visible it has a live register, which it shares with no other visible
variable. `Lowered` says of a statement that it was lowered in such surroundings; it passes
from a statement to its parts, so that every proof about the code of statements can take it
apart in the same way.

The registers of all variables of a program are in one table, which says the same at every
place, since no variable occurs in it twice.
-/
namespace Chipwright.Lowering

namespace Effect

variable {table : Homes} {s₀ s₁ : State} {defines binds : List Variable} {callees : List String}

/-- The registers that are taken are those of the variables that are defined. -/
theorem own (h : Effect s₀ defines binds callees s₁) (hunique : (table.map Prod.fst).Nodup)
    (htable : ∀ e ∈ s₁.homes, e ∈ table) :
    ∃ own : Homes, own.map Prod.fst = defines ∧ s₀.pool.Takes (own.map Prod.snd) s₁.pool ∧
      ∀ v ∈ defines, ∀ r, (v, r) ∈ table → (v, r) ∈ own := by
  obtain ⟨own, rfl, htakes, hown⟩ := h.taken
  refine ⟨own, rfl, htakes, fun v hv r hr => ?_⟩
  obtain ⟨⟨v, r'⟩, hmem, rfl⟩ := List.mem_map.1 hv
  obtain rfl := eq_of_mem_of_mem hunique hr (htable _ (hown _ hmem))
  exact hmem

/-- A variable is defined in a register that was free. -/
theorem free_of_mem_defines (h : Effect s₀ defines binds callees s₁)
    (hunique : (table.map Prod.fst).Nodup) (htable : ∀ e ∈ s₁.homes, e ∈ table) {v : Variable}
    {r : Register} (hv : v ∈ defines) (hr : (v, r) ∈ table) : r ∉ s₀.pool.live := by
  obtain ⟨own, -, htakes, hnew⟩ := h.own hunique htable
  exact htakes.free r (List.mem_map.2 ⟨_, hnew v hv r hr, rfl⟩)

end Effect

/-- All variables have registers. -/
def Homes.Covers (homes : Homes) (visible : List Variable) : Prop :=
  ∀ v ∈ visible, ∃ r, (v, r) ∈ homes

namespace Homes.Covers

variable {homes homes' : Homes} {visible visible' : List Variable}

theorem mono (h : homes.Covers visible) (hsub : ∀ e ∈ homes, e ∈ homes') :
    homes'.Covers visible :=
  fun v hv => (h v hv).imp fun _ hr => hsub _ hr

theorem subset (h : homes.Covers visible) (hsub : ∀ v ∈ visible', v ∈ visible) :
    homes.Covers visible' :=
  fun v hv => h v (hsub v hv)

theorem exists_lookup (h : homes.Covers visible) {v : Variable} (hv : v ∈ visible) :
    ∃ r, homes.lookup v = some r := by
  obtain ⟨r, hr⟩ := h v hv
  exact Option.isSome_iff_exists.1 (List.lookup_isSome_iff.2 ⟨(v, r), hr, by simp⟩)

theorem of_effect {s₀ s₁ : State} {defines binds : List Variable} {callees : List String}
    (h : s₀.homes.Covers visible) (heffect : Effect s₀ defines binds callees s₁) :
    s₁.homes.Covers (defines ++ visible) := by
  intro v hv
  rcases List.mem_append.1 hv with hv | hv
  · obtain ⟨own, rfl, -, hown⟩ := heffect.taken
    obtain ⟨⟨v, r⟩, hr, rfl⟩ := List.mem_map.1 hv
    exact ⟨r, hown _ hr⟩
  · exact h.mono (fun e he => heffect.mem_homes he) v hv

end Homes.Covers

/-- Visible variables have live registers, each its own. -/
structure Housed (table : Homes) (visible : List Variable) (pool : RegisterPool) : Prop where
  live : ∀ v ∈ visible, ∀ r, (v, r) ∈ table → r ∈ pool.live
  distinct : ∀ v ∈ visible, ∀ v' ∈ visible, ∀ r, (v, r) ∈ table → (v', r) ∈ table → v = v'

namespace Housed

variable {table : Homes} {visible : List Variable} {pool pool' : RegisterPool}

theorem of_live (h : Housed table visible pool) (hpool : ∀ r ∈ pool.live, r ∈ pool'.live) :
    Housed table visible pool' :=
  ⟨fun v hv r hr => hpool r (h.live v hv r hr), h.distinct⟩

/-- What statements define is housed after them. -/
theorem of_effect {s₀ s₁ : State} {defines binds : List Variable} {callees : List String}
    (h : Housed table visible s₀.pool) (heffect : Effect s₀ defines binds callees s₁)
    (hunique : (table.map Prod.fst).Nodup) (htable : ∀ e ∈ s₁.homes, e ∈ table) :
    Housed table (defines ++ visible) s₁.pool := by
  obtain ⟨own, hdefines, htakes, hnew⟩ := heffect.own hunique htable
  have hfree : ∀ v ∈ defines, ∀ r, (v, r) ∈ table → r ∉ s₀.pool.live :=
    fun v hv r hr => heffect.free_of_mem_defines hunique htable hv hr
  constructor
  · intro v hv r hr
    rcases List.mem_append.1 hv with hv | hv
    · exact htakes.mem_live.2 (Or.inr (List.mem_map.2 ⟨_, hnew v hv r hr, rfl⟩))
    · exact htakes.mem_live.2 (Or.inl (h.live v hv r hr))
  · intro v hv v' hv' r hr hr'
    rcases List.mem_append.1 hv with hv | hv <;> rcases List.mem_append.1 hv' with hv' | hv'
    · have heq := List.inj_on_of_nodup_map htakes.nodup (hnew v hv r hr) (hnew v' hv' r hr') rfl
      exact congrArg Prod.fst heq
    · exact absurd (h.live v' hv' r hr') (hfree v hv r hr)
    · exact absurd (h.live v hv r hr) (hfree v' hv' r hr')
    · exact h.distinct v hv v' hv' r hr hr'

end Housed

/-- What holds around every piece of a program that is lowered from one state to another. -/
structure Setting (table : Homes) (outer own : List Variable) (s₀ s₁ : State) : Prop where
  unique : (table.map Prod.fst).Nodup
  homes : ∀ e ∈ s₁.homes, e ∈ table
  housed : Housed table (own ++ outer) s₀.pool

/-- A statement that was lowered where the variables that it can see are housed. -/
structure Lowered (ctx : Context) (table : Homes) (outer own : List Variable)
    (st : Resolved.Stmt) (s₀ : State) (code : Code) (s₁ : State) : Prop
    extends Setting table outer own s₀ s₁ where
  lowered : ctx.stmt st s₀ = .ok code s₁
  visible : st.Scoped outer own

structure LoweredAll (ctx : Context) (table : Homes) (outer own : List Variable)
    (sts : List Resolved.Stmt) (s₀ : State) (code : Code) (s₁ : State) : Prop
    extends Setting table outer own s₀ s₁ where
  lowered : ctx.stmts sts s₀ = .ok code s₁
  visible : Resolved.Stmt.AllScoped outer own sts

structure LoweredItems (ctx : Context) (table : Homes) (own : List Variable)
    (is : List Resolved.Item) (s₀ : State) (code : Code) (s₁ : State) : Prop
    extends Setting table [] own s₀ s₁ where
  lowered : ctx.items is s₀ = .ok code s₁
  visible : Resolved.Stmt.AllScoped [] own (is.filterMap Resolved.Item.stmt?)

variable {ctx : Context} {table : Homes} {outer own : List Variable} {s₀ s₁ : State} {code : Code}

namespace Setting

/-- A visible variable is found in a live register. -/
theorem live_of_lookup (h : Setting table outer own s₀ s₁) {homes : Homes} {v : Variable}
    {r : Register} (hhomes : ∀ e ∈ homes, e ∈ s₁.homes) (hv : v ∈ own ++ outer)
    (hr : homes.lookup v = some r) : r ∈ s₀.pool.live :=
  h.housed.live v hv r (h.homes _ (hhomes _ (mem_of_lookup hr)))

/-- The surroundings of the first part of something. -/
theorem first {s : State} {defines binds : List Variable} {callees : List String}
    (h : Setting table outer own s₀ s₁) (heffect : Effect s defines binds callees s₁) :
    Setting table outer own s₀ s :=
  ⟨h.unique, fun e he => h.homes e (heffect.mem_homes he), h.housed⟩

/-- The surroundings of the statements after others. -/
theorem after {s : State} {defines binds : List Variable} {callees : List String}
    (h : Setting table outer own s₀ s₁) (heffect : Effect s₀ defines binds callees s)
    (hhomes : ∀ e ∈ s.homes, e ∈ s₁.homes) : Setting table outer (defines ++ own) s s₁ := by
  refine ⟨h.unique, h.homes, ?_⟩
  rw [List.append_assoc]
  exact h.housed.of_effect heffect h.unique fun e he => h.homes e (hhomes e he)

/-- The surroundings of statements in a block of their own. -/
theorem inner {s s' : State} {pool : RegisterPool} (h : Setting table outer own s₀ s₁)
    (hpool : s₀.pool.Takes [] pool) (hs : s.pool = pool.push) (hs' : ∀ e ∈ s'.homes, e ∈ s₁.homes) :
    Setting table outer own s s' := by
  refine ⟨h.unique, fun e he => h.homes e (hs' e he), h.housed.of_live fun r hr => ?_⟩
  rw [hs, RegisterPool.mem_live_push]
  exact hpool.mem_live.2 (Or.inl hr)

end Setting

theorem LoweredAll.cons {st : Resolved.Stmt} {sts : List Resolved.Stmt}
    (h : LoweredAll ctx table outer own (st :: sts) s₀ code s₁) :
    ∃ code₁ s code₂, Lowered ctx table outer own st s₀ code₁ s ∧
      LoweredAll ctx table outer (st.defines ++ own) sts s code₂ s₁ ∧ code = code₁ ++ code₂ := by
  obtain ⟨code₁, s, code₂, h₁, h₂, rfl⟩ := Context.stmts_cons_eq_ok h.lowered
  have heffect := Context.effect_of_stmt st h₁
  have heffect' := Context.effect_of_stmts sts h₂
  exact ⟨code₁, s, code₂, ⟨h.first heffect', h₁, h.visible.1⟩,
    ⟨h.after heffect fun e he => heffect'.mem_homes he, h₂, h.visible.2⟩, rfl⟩

namespace Lowered

theorem block {body : List Resolved.Stmt}
    (h : Lowered ctx table outer own (.block body) s₀ code s₁) :
    ∃ code₁ s rs pool,
      LoweredAll ctx table outer own body { s₀ with pool := s₀.pool.push } code₁ s ∧
      s.pool.pop = .ok (rs, pool) ∧ code = code₁ ++ [.finish] ∧ s₁ = { s with pool } := by
  cases Context.lowers_of_stmt h.lowered with
  | block hbody hpop =>
    refine ⟨_, _, _, _, ⟨?_, hbody, h.visible⟩, hpop, rfl, rfl⟩
    exact h.inner (.refl _) rfl fun e he => he

theorem loop {pos : Position} {body : List Resolved.Stmt}
    (h : Lowered ctx table outer own (.loop pos body) s₀ code s₁) :
    ∃ memory log start origin code₁ s rs pool,
      LoweredAll ctx table outer own body
        { s₀ with pool := s₀.pool.push, loops := s₀.loops + 1, memory, log } code₁ s ∧
      s.pool.pop = .ok (rs, pool) ∧
      code = [.label start, .note "loop"] ++ code₁ ++
        [Origin.line origin .jump [.label start], .finish] ∧
      s₁ = { s with pool } := by
  cases Context.lowers_of_stmt h.lowered with
  | loop hbody hpop =>
    refine ⟨_, _, _, _, _, _, _, _, ⟨?_, hbody, h.visible⟩, hpop, rfl, rfl⟩
    exact h.inner (.refl _) rfl fun e he => he

theorem ifThen {pos : Position} {e : Resolved.Expr} {body : List Resolved.Stmt}
    (h : Lowered ctx table outer own (.ifThen pos e body) s₀ code s₁) :
    ∃ finish origin x code₁ pool₁ pool₂ code₂ s rs pool₃,
      (ctx.exprContext origin s₀).lower e none s₀.pool = .ok (x, code₁, pool₁) ∧
      s₀.pool.Takes [] pool₂ ∧ (∀ r ∈ pool₁.used, r ∈ pool₂.used) ∧
      LoweredAll ctx table outer own body
        { s₀ with pool := pool₂.push, conditionals := s₀.conditionals + 1 } code₂ s ∧
      s.pool.pop = .ok (rs, pool₃) ∧
      code = .note "if" :: code₁ ++
        [origin.line .branchZero [x.operand, .label finish]] ++ code₂ ++
        [.label finish, .finish] ∧
      s₁ = { s with pool := pool₃ } := by
  cases Context.lowers_of_stmt h.lowered with
  | ifThen _ hlower hrelease hbody hpop =>
    have htakes := Value.takes_nil_of_release (ExprContext.takes_of_lower hlower) hrelease
    refine ⟨_, _, _, _, _, _, _, _, _, _, hlower, htakes,
      fun r hr => Value.used_of_release hrelease ▸ hr, ⟨?_, hbody, h.visible.2⟩, hpop, rfl, rfl⟩
    exact h.inner htakes rfl fun e he => he

theorem ifElse {pos : Position} {e : Resolved.Expr} {thenBody elseBody : List Resolved.Stmt}
    (h : Lowered ctx table outer own (.ifElse pos e thenBody elseBody) s₀ code s₁) :
    ∃ middle finish origin origin' x code₁ pool₁ pool₂ code₂ s rs pool₃ code₃ s' rs' pool₄,
      (ctx.exprContext origin s₀).lower e none s₀.pool = .ok (x, code₁, pool₁) ∧
      s₀.pool.Takes [] pool₂ ∧ (∀ r ∈ pool₁.used, r ∈ pool₂.used) ∧
      LoweredAll ctx table outer own thenBody
        { s₀ with pool := pool₂.push, conditionals := s₀.conditionals + 1 } code₂ s ∧
      s.pool.pop = .ok (rs, pool₃) ∧ s₀.pool.Takes [] pool₃ ∧
      LoweredAll ctx table outer own elseBody { s with pool := pool₃.push } code₃ s' ∧
      s'.pool.pop = .ok (rs', pool₄) ∧
      code = .note "if" :: code₁ ++
        [origin.line .branchZero [x.operand, .label middle]] ++ code₂ ++
        [Origin.line origin' .jump [.label finish], .label middle, .note "else"] ++ code₃ ++
        [.label finish, .finish] ∧
      s₁ = { s' with pool := pool₄ } := by
  cases Context.lowers_of_stmt h.lowered with
  | ifElse _ hlower hrelease hthen hpop helse hpop' =>
    have htakes := Value.takes_nil_of_release (ExprContext.takes_of_lower hlower) hrelease
    obtain ⟨rs₁, hbody⟩ := (Context.effect_of_stmts thenBody hthen).takes
    have htakes' := htakes.trans (RegisterPool.Takes.pop hbody hpop)
    have helseEffect := Context.effect_of_stmts elseBody helse
    refine ⟨_, _, _, _, _, _, _, _, _, _, _, _, _, _, _, _, hlower, htakes,
      fun r hr => Value.used_of_release hrelease ▸ hr, ⟨?_, hthen, h.visible.2.1⟩, hpop, htakes',
      ⟨?_, helse, h.visible.2.2⟩, hpop', rfl, rfl⟩
    · exact h.inner htakes rfl fun e he => helseEffect.mem_homes he
    · exact h.inner htakes' rfl fun e he => he

end Lowered

/-- Items other than statements leave the surroundings as they are. -/
theorem LoweredItems.cons_of_stmt?_eq_none {i : Resolved.Item} {is : List Resolved.Item}
    (h : LoweredItems ctx table own (i :: is) s₀ code s₁) (hi : i.stmt? = none) :
    ∃ code₁ s code₂, code = code₁ ++ code₂ ∧ ctx.item i s₀ = .ok code₁ s ∧
      (∃ devices, s = { s₀ with devices }) ∧
      (code₁ = [.finish] ∨ ∃ origin name slot,
        code₁ = [Origin.line origin .nameDevice [.name name, .device slot], .finish]) ∧
      LoweredItems ctx table own is s code₂ s₁ := by
  obtain ⟨code₁, s, code₂, h₁, h₂, rfl⟩ := Context.items_cons_eq_ok h.lowered
  rcases Context.item_eq_ok h₁ with ⟨st, rfl, -⟩ | ⟨-, hs, hcode⟩
  · cases hi
  · have hvisible := h.visible
    rw [List.filterMap_cons_none hi] at hvisible
    refine ⟨code₁, s, code₂, rfl, h₁, hs, hcode, ⟨h.unique, h.homes, ?_⟩, h₂, hvisible⟩
    obtain ⟨devices, rfl⟩ := hs
    exact h.housed

theorem LoweredItems.cons {i : Resolved.Item} {is : List Resolved.Item}
    (h : LoweredItems ctx table own (i :: is) s₀ code s₁) :
    ∃ code₁ s code₂, code = code₁ ++ code₂ ∧
      ((∃ st, i = .stmt st ∧ Lowered ctx table [] own st s₀ code₁ s ∧
          LoweredItems ctx table (st.defines ++ own) is s code₂ s₁) ∨
        i.stmt? = none ∧ (∃ devices, s = { s₀ with devices }) ∧
          (code₁ = [.finish] ∨ ∃ origin name slot,
            code₁ = [Origin.line origin .nameDevice [.name name, .device slot], .finish]) ∧
          LoweredItems ctx table own is s code₂ s₁) := by
  cases hi : i.stmt? with
  | none =>
    obtain ⟨code₁, s, code₂, hcode, -, hrest⟩ := h.cons_of_stmt?_eq_none hi
    exact ⟨code₁, s, code₂, hcode, Or.inr ⟨rfl, hrest⟩⟩
  | some st =>
    cases i <;> cases hi
    obtain ⟨code₁, s, code₂, h₁, h₂, rfl⟩ := Context.items_cons_eq_ok h.lowered
    have hst : ctx.stmt st s₀ = .ok code₁ s := h₁
    have heffect := Context.effect_of_stmt st hst
    have heffect' := Context.effect_of_items h₂
    exact ⟨code₁, s, code₂, rfl, Or.inl ⟨st, rfl, ⟨h.first heffect', hst, h.visible.1⟩,
      ⟨h.after heffect fun e he => heffect'.mem_homes he, h₂, h.visible.2⟩⟩⟩

end Chipwright.Lowering
