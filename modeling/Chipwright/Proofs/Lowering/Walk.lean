import Chipwright.Proofs.Lowering.Demand
import Mathlib.Data.Finset.Basic
import Mathlib.Data.Finset.Lattice.Lemmas

/-!
# Lowering expressions with a stack

`ExprContext.lower` follows the tree of an expression, and the values that it hands up say which
registers have to be given back. Here the same work is done in a loop. The loop has a stack of
what is still to be visited and a stack of operands that wait for their reader. An operator is
visited twice: at the first visit its operands go onto the stack, at the second one their results
are there and its line is made.

An operand does not say whether its register has to be given back. The loop looks that up in a
set of temporaries, which it keeps beside the pool.
-/
namespace Chipwright

theorem RegisterPool.mem_live_of_release {p q : RegisterPool} {r r' : Register}
    (h : p.release r = .ok q) (hr' : r' ∈ p.live) (hne : r' ≠ r) : r' ∈ q.live := by
  obtain ⟨-, rfl⟩ := release_eq_ok.1 h
  rw [mem_live] at hr' ⊢
  exact hr'.imp_right fun h => h.imp_left (List.mem_erase_of_ne hne).2

namespace Lowering

/-- A pool, and the registers that hold results of operators until these have been read. -/
structure Workspace where
  pool : RegisterPool
  temporaries : Finset Register
  live : ∀ r ∈ temporaries, r ∈ pool.live

namespace Workspace

variable {ws ws' ws'' : Workspace} {pool : RegisterPool} {r : Register} {rs rs' : List Register}

theorem live_of_allocate {construct : String} {location : Option Location}
    (h : ws.pool.allocate construct location = .ok (r, pool)) :
    ∀ r' ∈ insert r ws.temporaries, r' ∈ pool.live := by
  intro r' hr'
  rw [(RegisterPool.takes_of_allocate h).mem_live, List.mem_singleton]
  exact (Finset.mem_insert.1 hr').symm.imp_left (ws.live r')

theorem live_of_release (h : ws.pool.release r = .ok pool) :
    ∀ r' ∈ ws.temporaries.erase r, r' ∈ pool.live := by
  intro r' hr'
  obtain ⟨hne, hr'⟩ := Finset.mem_erase.1 hr'
  exact RegisterPool.mem_live_of_release h (ws.live r' hr') hne

/-- Takes a register for the result of an operator. -/
def take (construct : String) (location : Option Location) (ws : Workspace) :
    Except Failure (Register × Workspace) :=
  match h : ws.pool.allocate construct location with
  | .error e => .error e
  | .ok (r, pool) => .ok (r, ⟨pool, insert r ws.temporaries, live_of_allocate h⟩)

/-- Gives back the register of an operand, if it is a temporary. -/
def give : Operand → Workspace → Except Failure Workspace
  | .register r, ws =>
    if r ∈ ws.temporaries then
      match h : ws.pool.release r with
      | .error e => .error e
      | .ok pool => .ok ⟨pool, ws.temporaries.erase r, live_of_release h⟩
    else .ok ws
  | _, ws => .ok ws

theorem take_of_allocate {construct : String} {location : Option Location}
    (h : ws.pool.allocate construct location = .ok (r, pool)) :
    ∃ ws', ws.take construct location = .ok (r, ws') ∧ ws'.pool = pool ∧
      ws'.temporaries = insert r ws.temporaries := by
  unfold take
  split
  next heq =>
    rw [h] at heq
    cases heq
  next heq =>
    rw [h] at heq
    cases heq
    exact ⟨_, rfl, rfl, rfl⟩

theorem take_of_allocate_eq_error {construct : String} {location : Option Location} {e : Failure}
    (h : ws.pool.allocate construct location = .error e) :
    ws.take construct location = .error e := by
  unfold take
  split
  next heq =>
    rw [h] at heq
    exact congrArg Except.error (Except.error.inj heq).symm
  next heq =>
    rw [h] at heq
    cases heq

theorem give_of_release (hr : r ∈ ws.temporaries) (h : ws.pool.release r = .ok pool) :
    ∃ ws', ws.give (.register r) = .ok ws' ∧ ws'.pool = pool ∧
      ws'.temporaries = ws.temporaries.erase r := by
  simp only [give, if_pos hr]
  split
  next heq =>
    rw [h] at heq
    cases heq
  next heq =>
    rw [h] at heq
    cases heq
    exact ⟨_, rfl, rfl, rfl⟩

theorem give_of_notMem (hr : r ∉ ws.temporaries) : ws.give (.register r) = .ok ws := if_neg hr

/-- A register that is in use and belongs to something else than an operator. -/
def IsHome (ws : Workspace) (r : Register) : Prop := r ∈ ws.pool.live ∧ r ∉ ws.temporaries

/-- The workspace `ws'` is `ws` with results of operators in the registers `rs`. -/
structure Holds (ws : Workspace) (rs : List Register) (ws' : Workspace) : Prop where
  takes : ws.pool.Takes rs ws'.pool
  temporaries : ws'.temporaries = rs.toFinset ∪ ws.temporaries

namespace Holds

theorem refl (ws : Workspace) : ws.Holds [] ws := ⟨.refl _, by simp⟩

theorem trans (h : ws.Holds rs ws') (h' : ws'.Holds rs' ws'') : ws.Holds (rs ++ rs') ws'' := by
  refine ⟨h.takes.trans h'.takes, ?_⟩
  rw [h'.temporaries, h.temporaries, List.toFinset_append,
    Finset.union_comm rs.toFinset rs'.toFinset, Finset.union_assoc]

/-- Each of these registers is a temporary more. -/
theorem card_temporaries (h : ws.Holds rs ws') :
    ws'.temporaries.card = ws.temporaries.card + rs.length := by
  have hdisjoint : Disjoint rs.toFinset ws.temporaries := by
    rw [Finset.disjoint_left]
    intro r hr hmem
    exact h.takes.free r (List.mem_toFinset.1 hr) (ws.live r hmem)
  rw [h.temporaries, Finset.card_union_of_disjoint hdisjoint,
    List.toFinset_card_of_nodup h.takes.nodup, Nat.add_comm]

/-- Results of operators are put into free registers only. -/
theorem isHome (h : ws.Holds rs ws') (hr : ws.IsHome r) : ws'.IsHome r := by
  refine ⟨h.takes.mem_live.2 (Or.inl hr.1), ?_⟩
  rw [h.temporaries, Finset.mem_union, List.mem_toFinset]
  rintro (hmem | hmem)
  · exact h.takes.free r hmem hr.1
  · exact hr.2 hmem

/-- A value is given back as its operand is. -/
theorem give {x : Value} (h : ws.Holds (x.taken ++ rs) ws') (hx : x.release ws'.pool = .ok pool)
    (hhome : ∀ r, x = .home r → ws'.IsHome r) :
    ∃ ws'', ws'.give x.operand = .ok ws'' ∧ ws''.pool = pool ∧ ws.Holds rs ws'' := by
  cases x with
  | immediate c =>
    cases hx
    exact ⟨ws', rfl, rfl, h⟩
  | home r =>
    cases hx
    exact ⟨ws', give_of_notMem (hhome r rfl).2, rfl, h⟩
  | scratch r =>
    have htemporaries := h.temporaries
    rw [Value.taken, List.singleton_append, List.toFinset_cons, Finset.insert_union] at htemporaries
    obtain ⟨ws'', hgive, rfl, herase⟩ :=
      give_of_release (htemporaries ▸ Finset.mem_insert_self ..) hx
    have htakes : ws.pool.Takes ([] ++ r :: rs) ws'.pool := h.takes
    refine ⟨ws'', hgive, rfl, htakes.release hx, ?_⟩
    -- the register was free before, and it was taken only once
    have hfree : r ∉ ws.temporaries := fun hr =>
      h.takes.free r (by simp [Value.taken]) (ws.live r hr)
    have hother : r ∉ rs := (List.nodup_cons.1 h.takes.nodup).1
    rw [herase, htemporaries, Finset.erase_insert]
    simp [hfree, hother]

theorem give_last {x : Value} (h : ws.Holds x.taken ws') (hx : x.release ws'.pool = .ok pool)
    (hhome : ∀ r, x = .home r → ws'.IsHome r) :
    ∃ ws'', ws'.give x.operand = .ok ws'' ∧ ws''.pool = pool ∧ ws.Holds [] ws'' := by
  have h' : ws.Holds (x.taken ++ []) ws' := by simpa using h
  exact h'.give hx hhome

/-- Two values, of which the second was computed while the first was held, are given back as their
operands are. -/
theorem give_both {y z : Value} (h : ws.Holds y.taken ws') (h' : ws'.Holds z.taken ws'')
    (hy : ∀ r, y = .home r → ws.IsHome r) (hz : ∀ r, z = .home r → ws.IsHome r) :
    ∃ ws₁ ws₂, ws''.give y.operand = .ok ws₁ ∧ ws₁.give z.operand = .ok ws₂ ∧
      y.release ws''.pool = .ok ws₁.pool ∧ z.release ws₁.pool = .ok ws₂.pool ∧ ws.Holds [] ws₂ := by
  have hboth := h.trans h'
  obtain ⟨pool₁, hrelease₁, -⟩ := Value.exists_release_append hboth.takes
  obtain ⟨ws₁, hgive₁, rfl, hholds₁⟩ := hboth.give hrelease₁ fun r hr => hboth.isHome (hy r hr)
  obtain ⟨pool₂, hrelease₂⟩ := Value.exists_release hholds₁.takes
  obtain ⟨ws₂, hgive₂, rfl, hholds₂⟩ :=
    hholds₁.give_last hrelease₂ fun r hr => hholds₁.isHome (hz r hr)
  exact ⟨ws₁, ws₂, hgive₁, hgive₂, hrelease₁, hrelease₂, hholds₂⟩

end Holds

/-- At most so many temporaries are held in these workspaces, and in one of them as many. -/
structure Peaks (wss : List Workspace) (n : Nat) : Prop where
  le : ∀ ws ∈ wss, ws.temporaries.card ≤ n
  attained : ∃ ws ∈ wss, ws.temporaries.card = n

namespace Peaks

variable {wss wss' : List Workspace} {n n' : Nat}

theorem singleton (ws : Workspace) : Peaks [ws] ws.temporaries.card :=
  ⟨fun _ h => by rw [List.mem_singleton.1 h], ws, List.mem_singleton_self ws, rfl⟩

theorem append (h : Peaks wss n) (h' : Peaks wss' n') : Peaks (wss ++ wss') (max n n') where
  le ws hws := by
    rcases List.mem_append.1 hws with hws | hws
    · exact Nat.le_trans (h.le ws hws) (Nat.le_max_left ..)
    · exact Nat.le_trans (h'.le ws hws) (Nat.le_max_right ..)
  attained := by
    rcases Nat.le_total n n' with hle | hle
    · obtain ⟨ws, hws, hcard⟩ := h'.attained
      exact ⟨ws, List.mem_append_right _ hws, by rw [hcard, Nat.max_eq_right hle]⟩
    · obtain ⟨ws, hws, hcard⟩ := h.attained
      exact ⟨ws, List.mem_append_left _ hws, by rw [hcard, Nat.max_eq_left hle]⟩

/-- How often and in which order they are passed makes no difference. -/
theorem congr (h : Peaks wss n) (hmem : ∀ ws, ws ∈ wss' ↔ ws ∈ wss) : Peaks wss' n where
  le ws hws := h.le ws ((hmem ws).1 hws)
  attained := by
    obtain ⟨ws, hws, hcard⟩ := h.attained
    exact ⟨ws, (hmem ws).2 hws, hcard⟩

end Peaks

end Workspace

namespace ExprContext

/-- What is still to be done for an expression. -/
inductive Task
  /-- The first visit. -/
  | visit (e : Resolved.Expr) (target : Option Register)
  /-- The second visit of a negation. -/
  | not (target : Option Register)
  /-- The second visit of an operator with two operands. -/
  | binary (op : BinaryOp) (target : Option Register)

/-- The number of visits that an expression needs. -/
def visits : Resolved.Expr → Nat
  | .literal _ _ | .var _ _ | .const _ _ => 1
  | .not _ operand => visits operand + 2
  | .binary _ left right => visits left + visits right + 2

/-- The number of visits that a stack leads to. -/
def remaining : List Task → Nat
  | [] => 0
  | .visit e _ :: stack => visits e + remaining stack
  | .not _ :: stack | .binary _ _ :: stack => remaining stack + 1

/-- The register for the result of an operator. -/
def destination (ctx : ExprContext) (target : Option Register) (ws : Workspace) :
    Except Failure (Register × Workspace) :=
  match target with
  | some r => .ok (r, ws)
  | none => ws.take s!"{ctx.origin.text} (temporary)" (some (ctx.origin.pos.inFile ctx.file))

/-- Does all that is on a stack. The operands that wait for their reader are on a stack of their
own, the latest first. -/
def walkFrom (ctx : ExprContext) : List Task → List Operand → Code → Workspace →
    Except Failure (Operand × Code × Workspace)
  | [], x :: _, code, ws => .ok (x, code, ws)
  | .visit (.literal _ c) _ :: stack, xs, code, ws => ctx.walkFrom stack (.number c :: xs) code ws
  | .visit (.const _ c) _ :: stack, xs, code, ws =>
    ctx.walkFrom stack (.number c.value :: xs) code ws
  | .visit (.var _ v) _ :: stack, xs, code, ws => do
    let r ← ctx.homes.get v
    ctx.walkFrom stack (.register r :: xs) code ws
  | .visit (.not _ operand) target :: stack, xs, code, ws =>
    ctx.walkFrom (.visit operand none :: .not target :: stack) xs code ws
  | .visit (.binary op left right) target :: stack, xs, code, ws =>
    ctx.walkFrom (.visit left none :: .visit right none :: .binary op target :: stack) xs code ws
  | .not target :: stack, x :: xs, code, ws => do
    let ws ← ws.give x
    let (r, ws) ← ctx.destination target ws
    ctx.walkFrom stack (.register r :: xs) (code ++ [ctx.origin.line .seqz [.register r, x]]) ws
  | .binary op target :: stack, y :: x :: xs, code, ws => do
    let ws ← ws.give x
    let ws ← ws.give y
    let (r, ws) ← ctx.destination target ws
    ctx.walkFrom stack (.register r :: xs)
      (code ++ [ctx.origin.line op.opcode [.register r, x, y]]) ws
  -- the operands of an operator are always there
  | _, _, _, _ => .error .indexOutOfRange
termination_by stack => remaining stack
decreasing_by all_goals simp only [remaining, visits]; omega

/-- Lowers an expression visit by visit. -/
def walk (ctx : ExprContext) (e : Resolved.Expr) (target : Option Register) (ws : Workspace) :
    Except Failure (Operand × Code × Workspace) :=
  ctx.walkFrom [.visit e target] [] [] ws

/-- One round of the loop over a stack: what comes onto the stack in place of its top, the operands
that wait, the code that is made, and the workspace. -/
def round (ctx : ExprContext) : Task → List Operand → Workspace →
    Except Failure (List Task × List Operand × Code × Workspace)
  | .visit (.literal _ c) _, xs, ws => .ok ([], .number c :: xs, [], ws)
  | .visit (.const _ c) _, xs, ws => .ok ([], .number c.value :: xs, [], ws)
  | .visit (.var _ v) _, xs, ws => do
    let r ← ctx.homes.get v
    return ([], .register r :: xs, [], ws)
  | .visit (.not _ operand) target, xs, ws => .ok ([.visit operand none, .not target], xs, [], ws)
  | .visit (.binary op left right) target, xs, ws =>
    .ok ([.visit left none, .visit right none, .binary op target], xs, [], ws)
  | .not target, x :: xs, ws => do
    let ws ← ws.give x
    let (r, ws) ← ctx.destination target ws
    return ([], .register r :: xs, [ctx.origin.line .seqz [.register r, x]], ws)
  | .binary op target, y :: x :: xs, ws => do
    let ws ← ws.give x
    let ws ← ws.give y
    let (r, ws) ← ctx.destination target ws
    return ([], .register r :: xs, [ctx.origin.line op.opcode [.register r, x, y]], ws)
  | _, _, _ => .error .indexOutOfRange

/-- The loop goes on round by round. -/
theorem walkFrom_cons (ctx : ExprContext) (t : Task) (stack : List Task) (xs : List Operand)
    (code : Code) (ws : Workspace) :
    ctx.walkFrom (t :: stack) xs code ws = ctx.round t xs ws >>= fun s =>
      ctx.walkFrom (s.1 ++ stack) s.2.1 (code ++ s.2.2.1) s.2.2.2 := by
  cases t with
  | visit e target =>
    cases e with
    | var pos v =>
      rw [walkFrom, round]
      cases ctx.homes.get v with
      | error e => rfl
      | ok r => exact congrArg (ctx.walkFrom stack _ · ws) (List.append_nil code).symm
    | _ =>
      rw [walkFrom, round]
      exact congrArg (ctx.walkFrom _ _ · ws) (List.append_nil code).symm
  | not target =>
    cases xs with
    | nil =>
      simp only [walkFrom, round]
      rfl
    | cons x xs =>
      rw [walkFrom, round]
      cases ws.give x with
      | error e => rfl
      | ok ws =>
        simp only [bind, Except.bind]
        cases ctx.destination target ws <;> rfl
  | binary op target =>
    cases xs with
    | nil =>
      simp only [walkFrom, round]
      rfl
    | cons y xs =>
      cases xs with
      | nil =>
        simp only [walkFrom, round]
        rfl
      | cons x xs =>
        rw [walkFrom, round]
        cases ws.give x with
        | error e => rfl
        | ok ws =>
          simp only [bind, Except.bind]
          cases ws.give y with
          | error e => rfl
          | ok ws =>
            simp only
            cases ctx.destination target ws <;> rfl

/-- A state of the loop. -/
structure Config where
  stack : List Task
  operands : List Operand
  code : Code
  workspace : Workspace

/-- The loop goes from one state to another, round by round, with these workspaces before each. -/
inductive Passes (ctx : ExprContext) : Config → List Workspace → Config → Prop
  | refl (c : Config) : Passes ctx c [] c
  | round {t : Task} {stack new : List Task} {xs xs' : List Operand} {code line : Code}
    {ws ws' : Workspace} {wss : List Workspace} {c : Config} :
    ctx.round t xs ws = .ok (new, xs', line, ws') →
    Passes ctx ⟨new ++ stack, xs', code ++ line, ws'⟩ wss c →
      Passes ctx ⟨t :: stack, xs, code, ws⟩ (ws :: wss) c

theorem Passes.trans {ctx : ExprContext} {c c' c'' : Config} {wss wss' : List Workspace}
    (h : ctx.Passes c wss c') (h' : ctx.Passes c' wss' c'') : ctx.Passes c (wss ++ wss') c'' := by
  induction h with
  | refl => exact h'
  | round hround _ ih => exact .round hround (ih h')

/-- What is still to be done is the same all the way. -/
theorem Passes.walkFrom_eq {ctx : ExprContext} {c c' : Config} {wss : List Workspace}
    (h : ctx.Passes c wss c') : ctx.walkFrom c.stack c.operands c.code c.workspace =
      ctx.walkFrom c'.stack c'.operands c'.code c'.workspace := by
  induction h with
  | refl => rfl
  | round hround _ ih =>
    rw [walkFrom_cons, hround]
    exact ih

variable {ctx : ExprContext} {e : Resolved.Expr} {target : Option Register} {ws : Workspace}
  {x : Value} {code : Code} {pool pool' : RegisterPool}

theorem destination_of_result (h : ctx.result target ws.pool = .ok (x, pool)) :
    ∃ r ws', ctx.destination target ws = .ok (r, ws') ∧ x.operand = .register r ∧
      ws'.pool = pool ∧ ws.Holds x.taken ws' := by
  have htakes := takes_of_result h
  cases target with
  | some r =>
    cases h
    exact ⟨r, ws, rfl, rfl, rfl, .refl ws⟩
  | none =>
    simp only [result, bind_eq_ok, pure_eq_ok, Prod.mk.injEq] at h
    obtain ⟨⟨r, pool₁⟩, hallocate, rfl, rfl⟩ := h
    obtain ⟨ws', htake, rfl, htemporaries⟩ := Workspace.take_of_allocate hallocate
    exact ⟨r, ws', htake, rfl, rfl, htakes, by rw [htemporaries]; simp [Value.taken]⟩

/-- If there is no register for a result, the loop finds none either. -/
theorem destination_eq_error {α : Type} {f : Failure} {g : Value × RegisterPool → α}
    (h : (do return g (← ctx.result target ws.pool)) = Except.error f) :
    ctx.destination target ws = .error f := by
  rcases bind_eq_error.1 h with hresult | ⟨_, _, hpure⟩
  · cases target with
    | some r => cases hresult
    | none =>
      rcases bind_eq_error.1 hresult with hallocate | ⟨_, _, hpure⟩
      · exact Workspace.take_of_allocate_eq_error hallocate
      · cases hpure
  · cases hpure

theorem isHome_of_lower (h : ctx.lower e target pool = .ok (x, code, pool'))
    (hvars : ∀ v ∈ e.vars, ∀ r, ctx.homes.lookup v = some r → ws.IsHome r)
    (htarget : ∀ r, target = some r → ws.IsHome r) : ∀ r, x = .home r → ws.IsHome r := by
  rintro r rfl
  obtain hr | ⟨v, hv, hr⟩ := home_of_lower h
  · exact htarget r hr
  · exact hvars v hv r hr

/-- The register of a result is the only one that stays taken. -/
theorem length_taken_of_result (h : ctx.result target pool = .ok (x, pool')) :
    x.taken.length = Resolved.Expr.ownRegister target := by
  rcases result_eq_ok h with ⟨r, rfl, rfl, -⟩ | ⟨r, rfl, rfl, -⟩ <;> rfl

/-- A visit of an expression goes through workspaces from the first one on to the last, where its
value is held. On the way as many temporaries are held at once as the expression demands. -/
structure Visits (ctx : ExprContext) (e : Resolved.Expr) (target : Option Register) (x : Value)
    (code : Code) (ws : Workspace) (wss : List Workspace) (ws' : Workspace) : Prop where
  holds : ws.Holds x.taken ws'
  first : ws ∈ wss
  peaks : Workspace.Peaks (wss ++ [ws']) (ws.temporaries.card + e.demandFor target)
  passes : ∀ stack xs code₀, ctx.Passes ⟨.visit e target :: stack, xs, code₀, ws⟩ wss
    ⟨stack, x.operand :: xs, code₀ ++ code, ws'⟩

/-- A leaf is visited once, and nothing is taken for it. -/
theorem visits_leaf (htaken : x.taken = []) (hdemand : e.demandFor target = 0)
    (hround : ∀ xs, ctx.round (.visit e target) xs ws = .ok ([], x.operand :: xs, [], ws)) :
    ctx.Visits e target x [] ws [ws] ws where
  holds := by
    rw [htaken]
    exact .refl ws
  first := List.mem_singleton_self ws
  peaks := by
    rw [hdemand]
    exact (Workspace.Peaks.singleton ws).congr (by simp)
  passes stack xs code₀ := .round (hround xs) (.refl _)

variable {ws₁ ws₂ ws₃ ws₄ : Workspace} {wss wss₁ wss₂ : List Workspace} {y z : Value}
  {code₁ code₂ : Code}

/-- At the second visit of a negation its operand is given back. -/
theorem visits_not {pos : Position} (h : ctx.Visits e none y code₁ ws wss ws₁)
    (hgive : ws₁.give y.operand = .ok ws₂) (hresult : ctx.result target ws₂.pool = .ok (x, pool))
    (hholds : ws.Holds [] ws₂) :
    ∃ ws', ws'.pool = pool ∧
      ctx.Visits (.not pos e) target x (code₁ ++ [ctx.origin.line .seqz [x.operand, y.operand]])
        ws (ws :: (wss ++ [ws₁])) ws' := by
  obtain ⟨r, ws₃, hdestination, hr, rfl, hholds₃⟩ := destination_of_result hresult
  have hholds := hholds.trans hholds₃
  refine ⟨ws₃, rfl, hholds, List.mem_cons_self .., ?_, fun stack xs code₀ => ?_⟩
  · have hcard := hholds.card_temporaries
    rw [List.nil_append, length_taken_of_result hresult] at hcard
    rw [Resolved.Expr.demandFor_not, ← Nat.add_max_add_left, ← hcard]
    refine (h.peaks.append (.singleton ws₃)).congr fun w => ?_
    rw [List.cons_append, List.mem_cons]
    exact or_iff_right_of_imp fun hw => by simp [hw, h.first]
  · have hlast : ctx.round (.not target) (y.operand :: xs) ws₁ =
        .ok ([], x.operand :: xs, [ctx.origin.line .seqz [x.operand, y.operand]], ws₃) := by
      rw [round, hgive, hr]
      simp only [bind, Except.bind, hdestination]
      rfl
    have hrest := (h.passes (.not target :: stack) xs (code₀ ++ [])).trans
      (.round hlast (.refl _))
    have hvisit : ctx.round (.visit (.not pos e) target) xs ws =
      .ok ([.visit e none, .not target], xs, [], ws) := rfl
    simpa using Passes.round hvisit hrest

/-- At the second visit of a binary operator its operands are given back, from left to right. -/
theorem visits_binary {op : BinaryOp} {left right : Resolved.Expr}
    (h₁ : ctx.Visits left none y code₁ ws wss₁ ws₁)
    (h₂ : ctx.Visits right none z code₂ ws₁ wss₂ ws₂)
    (hheld : y.taken.length = left.held) (hgive₁ : ws₂.give y.operand = .ok ws₃)
    (hgive₂ : ws₃.give z.operand = .ok ws₄) (hresult : ctx.result target ws₄.pool = .ok (x, pool))
    (hholds : ws.Holds [] ws₄) :
    ∃ ws', ws'.pool = pool ∧ ctx.Visits (.binary op left right) target x
      (code₁ ++ code₂ ++ [ctx.origin.line op.opcode [x.operand, y.operand, z.operand]])
      ws (ws :: (wss₁ ++ wss₂ ++ [ws₂])) ws' := by
  obtain ⟨r, ws₅, hdestination, hr, rfl, hholds₅⟩ := destination_of_result hresult
  have hholds := hholds.trans hholds₅
  refine ⟨ws₅, rfl, hholds, List.mem_cons_self .., ?_, fun stack xs code₀ => ?_⟩
  · -- while the right operand is visited, the value of the left one is held
    have hpeaks₂ := h₂.peaks
    rw [h₁.holds.card_temporaries, hheld, Nat.add_assoc] at hpeaks₂
    have hcard := hholds.card_temporaries
    rw [List.nil_append, length_taken_of_result hresult] at hcard
    rw [Resolved.Expr.demandFor_binary, ← Nat.add_max_add_left, ← Nat.add_max_add_left, ← hcard]
    refine ((h₁.peaks.append hpeaks₂).append (.singleton ws₅)).congr fun w => ?_
    have hfirst : w = ws → w ∈ wss₁ := fun hw => hw ▸ h₁.first
    have hbetween : w = ws₁ → w ∈ wss₂ := fun hw => hw ▸ h₂.first
    simp only [List.mem_cons, List.mem_append]
    grind
  · have hlast : ctx.round (.binary op target) (z.operand :: y.operand :: xs) ws₂ =
        .ok ([], x.operand :: xs,
          [ctx.origin.line op.opcode [x.operand, y.operand, z.operand]], ws₅) := by
      rw [round, hgive₁, hr]
      simp only [bind, Except.bind, hgive₂, hdestination]
      rfl
    have hrest := ((h₁.passes (.visit right none :: .binary op target :: stack) xs
      (code₀ ++ [])).trans (h₂.passes _ _ _)).trans (.round hlast (.refl _))
    have hvisit : ctx.round (.visit (.binary op left right) target) xs ws =
      .ok ([.visit left none, .visit right none, .binary op target], xs, [], ws) := rfl
    simpa using Passes.round hvisit hrest

/-- To visit an expression is to lower it. -/
theorem visits_of_lower (h : ctx.lower e target ws.pool = .ok (x, code, pool'))
    (hvars : ∀ v ∈ e.vars, ∀ r, ctx.homes.lookup v = some r → ws.IsHome r) :
    ∃ ws' wss, ws'.pool = pool' ∧ ctx.Visits e target x code ws wss ws' := by
  obtain ⟨pool, hpool⟩ : ∃ pool, ws.pool = pool := ⟨_, rfl⟩
  rw [hpool] at h
  replace h := lowers_of_lower h
  induction h generalizing ws with
  | @literal _ _ target | @const _ _ target =>
    exact ⟨ws, [ws], hpool, visits_leaf rfl (by cases target <;> rfl) fun _ => rfl⟩
  | @var _ _ target _ _ hhome =>
    refine ⟨ws, [ws], hpool, visits_leaf rfl (by cases target <;> rfl) fun xs => ?_⟩
    rw [round, Homes.get, hhome]
    rfl
  | not y _ hy hrelease hresult _ ih =>
    obtain ⟨ws₁, wss, rfl, hvisit⟩ := ih hvars hpool
    have hhome := fun r hr => hvisit.holds.isHome (isHome_of_lower hy hvars (by simp) r hr)
    obtain ⟨ws₂, hgive, rfl, hholds⟩ := hvisit.holds.give_last hrelease hhome
    obtain ⟨ws', hpool, hvisits⟩ := visits_not hvisit hgive hresult hholds
    exact ⟨ws', _, hpool, hvisits⟩
  | @binary _ left right _ _ _ _ _ _ _ _ _ y z _ hy hz hy' hz' hresult _ _ ihl ihr =>
    have hvars₁ := fun v hv => hvars v (List.mem_append_left right.vars hv)
    have hvars₂ := fun v hv => hvars v (List.mem_append_right left.vars hv)
    obtain ⟨ws₁, wss₁, rfl, hvisit₁⟩ := ihl hvars₁ hpool
    have hvars₂' := fun v hv r hr => hvisit₁.holds.isHome (hvars₂ v hv r hr)
    obtain ⟨ws₂, wss₂, rfl, hvisit₂⟩ := ihr hvars₂' rfl
    obtain ⟨ws₃, ws₄, hgive₁, hgive₂, hrelease₁, hrelease₂, hholds⟩ :=
      hvisit₁.holds.give_both hvisit₂.holds (isHome_of_lower hy hvars₁ (by simp))
        (isHome_of_lower hz hvars₂ (by simp))
    cases hy'.symm.trans hrelease₁
    cases hz'.symm.trans hrelease₂
    obtain ⟨ws', hpool, hvisits⟩ :=
      visits_binary hvisit₁ hvisit₂ (length_taken_of_lower hy) hgive₁ hgive₂ hresult hholds
    exact ⟨ws', _, hpool, hvisits⟩

/-- What is left after the visit is done with the value of the expression. -/
theorem walkFrom_of_lower (h : ctx.lower e target ws.pool = .ok (x, code, pool'))
    (hvars : ∀ v ∈ e.vars, ∀ r, ctx.homes.lookup v = some r → ws.IsHome r) :
    ∃ ws', ws'.pool = pool' ∧ ws.Holds x.taken ws' ∧ ∀ stack xs code₀,
      ctx.walkFrom (.visit e target :: stack) xs code₀ ws =
        ctx.walkFrom stack (x.operand :: xs) (code₀ ++ code) ws' := by
  obtain ⟨ws', wss, hpool, hvisits⟩ := visits_of_lower h hvars
  exact ⟨ws', hpool, hvisits.holds, fun stack xs code₀ =>
    (hvisits.passes stack xs code₀).walkFrom_eq⟩

/-- Where lowering fails, the walk fails for the same reason. -/
theorem walkFrom_of_lower_eq_error {f : Failure} (h : ctx.lower e target ws.pool = .error f)
    (hvars : ∀ v ∈ e.vars, ∀ r, ctx.homes.lookup v = some r → ws.IsHome r) (stack : List Task)
    (xs : List Operand) (code₀ : Code) :
    ctx.walkFrom (.visit e target :: stack) xs code₀ ws = .error f := by
  induction e generalizing target ws stack xs code₀ with
  | literal pos c | const pos c => cases h
  | var pos v =>
    rcases bind_eq_error.1 h with hget | ⟨_, _, hpure⟩
    · rw [walkFrom, hget]
      rfl
    · cases hpure
  | not pos e ih =>
    rw [walkFrom]
    rcases bind_eq_error.1 h with hy | ⟨⟨y, code₁, pool₁⟩, hy, h⟩
    · exact ih hy hvars _ _ _
    · obtain ⟨ws₁, rfl, hholds, hwalk⟩ := walkFrom_of_lower hy hvars
      obtain ⟨pool₂, hrelease⟩ := Value.exists_release hholds.takes
      have hhome := fun r hr => hholds.isHome (isHome_of_lower hy hvars (by simp) r hr)
      obtain ⟨ws₂, hgive, rfl, -⟩ := hholds.give_last hrelease hhome
      simp only [hrelease] at h
      have hresult := destination_eq_error h
      rw [hwalk, walkFrom, hgive]
      simp only [bind, Except.bind, hresult]
  | binary op left right ihl ihr =>
    rw [walkFrom]
    have hvars₁ := fun v hv => hvars v (List.mem_append_left right.vars hv)
    have hvars₂ := fun v hv => hvars v (List.mem_append_right left.vars hv)
    rcases bind_eq_error.1 h with hy | ⟨⟨y, code₁, pool₁⟩, hy, h⟩
    · exact ihl hy hvars₁ _ _ _
    obtain ⟨ws₁, rfl, hholds₁, hwalk₁⟩ := walkFrom_of_lower hy hvars₁
    have hvars₂' := fun v hv r hr => hholds₁.isHome (hvars₂ v hv r hr)
    rw [hwalk₁]
    rcases bind_eq_error.1 h with hz | ⟨⟨z, code₂, pool₂⟩, hz, h⟩
    · exact ihr hz hvars₂' _ _ _
    obtain ⟨ws₂, rfl, hholds₂, hwalk₂⟩ := walkFrom_of_lower hz hvars₂'
    obtain ⟨ws₃, ws₄, hgive₁, hgive₂, hrelease₁, hrelease₂, -⟩ :=
      hholds₁.give_both hholds₂ (isHome_of_lower hy hvars₁ (by simp))
        (isHome_of_lower hz hvars₂ (by simp))
    simp only [hrelease₁] at h
    change (z.release ws₃.pool >>= _) = _ at h
    simp only [hrelease₂] at h
    have hresult := destination_eq_error h
    rw [hwalk₂, walkFrom, hgive₁]
    simp only [bind, Except.bind, hgive₂, hresult]

/-- The walk gives what lowering gives. When its result has been read and given back, the frames
and the temporaries are as they were. -/
theorem walk_of_lower (h : ctx.lower e target ws.pool = .ok (x, code, pool'))
    (hvars : ∀ v ∈ e.vars, ∀ r, ctx.homes.lookup v = some r → ws.IsHome r)
    (htarget : ∀ r, target = some r → ws.IsHome r) :
    ∃ ws' ws'', ctx.walk e target ws = .ok (x.operand, code, ws') ∧ ws'.pool = pool' ∧
      ws'.give x.operand = .ok ws'' ∧ x.release pool' = .ok ws''.pool ∧
      ws''.pool.frames = ws.pool.frames ∧ ws''.temporaries = ws.temporaries := by
  obtain ⟨ws', rfl, hholds, hwalk⟩ := walkFrom_of_lower h hvars
  obtain ⟨pool'', hrelease⟩ := Value.exists_release hholds.takes
  have hhome := fun r hr => hholds.isHome (isHome_of_lower h hvars htarget r hr)
  obtain ⟨ws'', hgive, rfl, hholds'⟩ := hholds.give_last hrelease hhome
  refine ⟨ws', ws'', ?_, rfl, hgive, hrelease, hholds'.takes.frames, by simp [hholds'.temporaries]⟩
  rw [walk, hwalk, walkFrom, List.nil_append]

end ExprContext

end Lowering

end Chipwright
