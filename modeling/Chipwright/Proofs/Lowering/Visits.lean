import Chipwright.Proofs.Lowering.Build

/-!
# The statements of a program while they are lowered

Lowering comes to every statement of a program once. A visit is a statement with the variables
that are visible where it stands and the states before and after it was lowered. The visits of a
program are found by the steps of lowering itself: `Context.visits` lowers statements one after
the other, and goes into a statement from the state in which its body is lowered.

In a function all global variables count as visible, those that are defined after it included.
-/
namespace Chipwright

namespace Resolved

/-- A statement with the variables that are visible where it stands. -/
structure Point where
  visible : List Variable
  stmt : Stmt

namespace Stmt

mutual

/-- The statements inside a statement. -/
def innerPoints (visible : List Variable) : Stmt → List Point
  | block body => points visible body
  | loop _ body => points visible body
  | ifThen _ _ thenBody => points visible thenBody
  | ifElse _ _ thenBody elseBody => points visible thenBody ++ points visible elseBody
  | _ => []

/-- The statements of a block, and those inside them. -/
def points (visible : List Variable) : List Stmt → List Point
  | [] => []
  | st :: sts => ⟨visible, st⟩ :: st.innerPoints visible ++ points (st.defines ++ visible) sts

end

end Stmt

/-- All statements of a program. -/
def Program.points (p : Program) : List Point :=
  Stmt.points [] p.main ++
    p.functions.flatMap fun f => Stmt.points (f.params ++ p.globals) f.body

end Resolved

namespace Lowering

/-- A statement and what it was lowered to. -/
structure Visit where
  point : Resolved.Point
  before : State
  code : Code
  after : State

namespace Lower

/-- Goes on in the state after a step. -/
def andVisit {α : Type} (step : Lower α) (next : State → List Visit) (s : State) : List Visit :=
  match step s with
  | .ok _ s' => next s'
  | .error _ _ => []

def push : Lower Unit := modify fun s => { s with pool := s.pool.push }

end Lower

namespace Context

/-- The steps before the body of a loop. -/
def loopStart (ctx : Context) (pos : Position) (body : List Resolved.Stmt) : Lower Unit := do
  ctx.checkLoop pos body
  let _ ← Lower.nextLoop
  Lower.push

/-- The condition of a conditional. -/
def condition (ctx : Context) (pos : Position) (e : Resolved.Expr) : Lower Unit := do
  let _ ← Lower.nextConditional
  let (x, _) ← ctx.expr ⟨"if condition", pos⟩ e
  releaseAll [x]

/-- The steps before the first branch of a conditional. -/
def thenStart (ctx : Context) (pos : Position) (e : Resolved.Expr) : Lower Unit := do
  ctx.condition pos e
  Lower.push

/-- The steps before the second branch of a conditional. -/
def elseStart (ctx : Context) (pos : Position) (e : Resolved.Expr)
    (thenBody : List Resolved.Stmt) : Lower Unit := do
  ctx.condition pos e
  let _ ← Lower.framed (ctx.stmts thenBody)
  Lower.push

mutual

/-- The visits to the statements inside a statement that is lowered from a state. -/
def inside (ctx : Context) (visible : List Variable) : Resolved.Stmt → State → List Visit
  | .block body, s => Lower.push.andVisit (ctx.visits visible body) s
  | .loop pos body, s => (ctx.loopStart pos body).andVisit (ctx.visits visible body) s
  | .ifThen pos e body, s => (ctx.thenStart pos e).andVisit (ctx.visits visible body) s
  | .ifElse pos e thenBody elseBody, s =>
    (ctx.thenStart pos e).andVisit (ctx.visits visible thenBody) s ++
      (ctx.elseStart pos e thenBody).andVisit (ctx.visits visible elseBody) s
  | _, _ => []

/-- The visits to statements that are lowered from a state, and to those inside them. -/
def visits (ctx : Context) (visible : List Variable) : List Resolved.Stmt → State → List Visit
  | [], _ => []
  | st :: sts, s =>
    match ctx.stmt st s with
    | .ok code s' =>
      ⟨⟨visible, st⟩, s, code, s'⟩ :: ctx.inside visible st s ++
        ctx.visits (st.defines ++ visible) sts s'
    | .error _ _ => []

end

/-- The visits to the statements of the top-level code. -/
def itemVisits (ctx : Context) (visible : List Variable) :
    List Resolved.Item → State → List Visit
  | [], _ => []
  | .stmt st :: is, s =>
    match ctx.stmt st s with
    | .ok code s' =>
      ⟨⟨visible, st⟩, s, code, s'⟩ :: ctx.inside visible st s ++
        ctx.itemVisits (st.defines ++ visible) is s'
    | .error _ _ => []
  | i :: is, s => (ctx.item i).andVisit (ctx.itemVisits visible is) s

/-- The visits to the statements of a function. -/
def passVisits (ctx : Context) (p : Resolved.Program) (globals : List Register) (x : Pass) :
    List Visit :=
  (ctx.enter globals (makesCalls p x.function.name) x.function).andVisit
    (ctx.visits (x.function.params ++ p.globals) x.function.body) x.before

end Context

/-! ### Bodies -/

/-- The body of a statement, which is lowered after the given steps from the state in which the
statement was met. -/
structure Opened (ctx : Context) (steps : Lower Unit) (body : List Resolved.Stmt)
    (s : State) (code : Code) (s' s₁ : State) (code₁ : Code) (s₂ : State) : Prop where
  steps : steps s = .ok () s₁
  lowered : ctx.stmts body s₁ = .ok code₁ s₂
  pool : ∃ pool, s.pool.Takes [] pool ∧ s₁.pool = pool.push
  homes : ∀ e ∈ s.homes, e ∈ s₁.homes
  table : ∀ e ∈ s₂.homes, e ∈ s'.homes
  code : code₁ <:+: code

namespace Context

variable {body : List Resolved.Stmt} {pos : Position} {e : Resolved.Expr}

variable {ctx : Context} {s s' : State} {code : Code}

theorem opened_block (h : ctx.stmt (.block body) s = .ok code s') :
    ∃ s₁ code₁ s₂, Opened ctx Lower.push body s code s' s₁ code₁ s₂ := by
  cases lowers_of_stmt h with
  | block hbody _ =>
    exact ⟨_, _, _, rfl, hbody, ⟨s.pool, .refl _, rfl⟩, fun e he => he, fun e he => he,
      (List.prefix_append _ _).isInfix⟩

theorem opened_loop (h : ctx.stmt (.loop pos body) s = .ok code s') :
    ∃ s₁ code₁ s₂, Opened ctx (ctx.loopStart pos body) body s code s' s₁ code₁ s₂ := by
  simp only [stmt, Lower.bind_eq_ok, Lower.pure_eq_ok, Lower.framed_eq_ok,
    Lower.nextLoop_eq_ok] at h
  obtain ⟨_, sc, hcheck, _, _, ⟨rfl, rfl⟩, code₁, _, ⟨s₂, rs, pool, hbody, -, rfl⟩, rfl, rfl⟩ := h
  obtain ⟨memory, log, rfl⟩ := checkLoop_eq_ok hcheck
  refine ⟨_, code₁, s₂, ?_, hbody, ⟨s.pool, .refl _, rfl⟩, fun e he => he, fun e he => he,
    List.infix_append _ _ _⟩
  simp only [loopStart, Lower.push, Lower.bind_eq_ok, Lower.nextLoop_eq_ok, Lower.modify_eq_ok]
  exact ⟨_, _, hcheck, _, _, ⟨rfl, rfl⟩, rfl⟩

/-- What a condition leaves of the state. -/
theorem condition_eq_ok {a : Unit} (h : ctx.condition pos e s = .ok a s') :
    ∃ pool, s.pool.Takes [] pool ∧
      s' = { s with pool, conditionals := s.conditionals + 1 } := by
  simp only [condition, Lower.bind_eq_ok, Lower.nextConditional_eq_ok] at h
  obtain ⟨_, _, ⟨rfl, rfl⟩, ⟨x, code⟩, _, hexpr, hrelease⟩ := h
  obtain ⟨pool₁, hlower, rfl⟩ := expr_eq_ok hexpr
  obtain ⟨pool₂, hfree, rfl⟩ := releaseAll_eq_ok hrelease
  rw [releaseAll_singleton] at hfree
  exact ⟨pool₂, Value.takes_nil_of_release (ExprContext.takes_of_lower hlower) hfree, rfl⟩

theorem opened_ifThen (h : ctx.stmt (.ifThen pos e body) s = .ok code s') :
    ∃ s₁ code₁ s₂, Opened ctx (ctx.thenStart pos e) body s code s' s₁ code₁ s₂ := by
  simp only [stmt, Lower.bind_eq_ok, Lower.pure_eq_ok, Lower.framed_eq_ok] at h
  obtain ⟨n, s₀, hn, ⟨x, code₀⟩, s₁, hexpr, u, s₂, hrelease, code₁, _,
    ⟨s₃, rs, pool, hbody, -, rfl⟩, rfl, rfl⟩ := h
  have hcondition : ctx.condition pos e s = .ok u s₂ := by
    simp only [condition, Lower.bind_eq_ok]
    exact ⟨n, s₀, hn, (x, code₀), s₁, hexpr, hrelease⟩
  obtain ⟨pool₂, htakes, rfl⟩ := condition_eq_ok hcondition
  refine ⟨_, code₁, s₃, ?_, hbody, ⟨pool₂, htakes, rfl⟩, fun e he => he, fun e he => he,
    List.infix_append _ _ _⟩
  simp only [thenStart, Lower.push, Lower.bind_eq_ok, Lower.modify_eq_ok]
  exact ⟨u, _, hcondition, rfl⟩

theorem opened_ifElse {thenBody elseBody : List Resolved.Stmt}
    (h : ctx.stmt (.ifElse pos e thenBody elseBody) s = .ok code s') :
    (∃ s₁ code₁ s₂, Opened ctx (ctx.thenStart pos e) thenBody s code s' s₁ code₁ s₂) ∧
      ∃ s₁ code₁ s₂, Opened ctx (ctx.elseStart pos e thenBody) elseBody s code s' s₁ code₁ s₂ := by
  simp only [stmt, Lower.bind_eq_ok, Lower.pure_eq_ok] at h
  obtain ⟨n, s₀, hn, ⟨x, code₀⟩, s₁, hexpr, u, s₂, hrelease, code₁, s₃, hthen, code₂, s₄, helse,
    rfl, rfl⟩ := h
  have hcondition : ctx.condition pos e s = .ok u s₂ := by
    simp only [condition, Lower.bind_eq_ok]
    exact ⟨n, s₀, hn, (x, code₀), s₁, hexpr, hrelease⟩
  have hthen' := hthen
  rw [Lower.framed_eq_ok] at hthen helse
  obtain ⟨s₅, rs, pool₅, hthenBody, hpop, rfl⟩ := hthen
  obtain ⟨s₆, rs', pool₆, helseBody, -, rfl⟩ := helse
  obtain ⟨pool₂, htakes, rfl⟩ := condition_eq_ok hcondition
  have hthenEffect := effect_of_stmts thenBody hthenBody
  obtain ⟨own, hown⟩ := hthenEffect.takes
  have helseEffect := effect_of_stmts elseBody helseBody
  refine ⟨⟨_, code₁, s₅, ?_, hthenBody, ⟨pool₂, htakes, rfl⟩, fun e he => he,
    fun e he => helseEffect.mem_homes he, ?_⟩, ⟨_, code₂, s₆, ?_, helseBody,
    ⟨pool₅, htakes.trans (RegisterPool.Takes.pop hown hpop), rfl⟩,
    fun e he => hthenEffect.mem_homes he, fun e he => he, List.infix_append _ _ _⟩⟩
  · simp only [thenStart, Lower.push, Lower.bind_eq_ok, Lower.modify_eq_ok]
    exact ⟨u, _, hcondition, rfl⟩
  · simp only [List.append_assoc]
    exact (List.infix_append' _ code₁ _).trans (List.suffix_append _ _).isInfix
  · simp only [elseStart, Lower.push, Lower.bind_eq_ok, Lower.modify_eq_ok]
    exact ⟨u, _, hcondition, code₁, _, hthen', rfl⟩

end Context

end Lowering

/-- The visits to all statements of a program, function by function in the order in which they
are lowered. -/
def Resolved.Program.visits (file : String) (options : Options) (p : Resolved.Program) :
    Except Failure (List Lowering.Visit) := do
  let pool ← RegisterPool.ofCount options.registerCount []
  let h ← p.history file options
  let ctx : Lowering.Context := ⟨file, options, p⟩
  return ctx.itemVisits [] p.items { pool } ++
    h.passes.flatMap (ctx.passVisits p h.main.globalRegisters)

end Chipwright
