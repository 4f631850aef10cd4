import Chipwright.Proofs.Lowering.Outcomes
import Chipwright.Proofs.Resolved.Yield

/-!
# Lowering compared with lowering elsewhere

A run of lowering is compared with one in other surroundings, or from another state, in several
ways. Each of them is a relation between steps that is kept when steps follow each other. So it
holds of all statements as soon as it holds of the steps that statements are made of.
-/
namespace Chipwright.Lowering

open Resolved (Loop)

/-- A relation between a step and the same step elsewhere, which may also depend on the loops that
are lowered in it. It is kept when steps are put together, and it holds of each step that lowering
takes. -/
structure Lower.Congruence (ctx ctx' : Context)
    (R : List Loop → (α : Type) → Lower α → Lower α → Prop) : Prop where
  pure {α : Type} (a : α) : R [] α (Pure.pure a) (Pure.pure a)
  bind {α β : Type} {ls ls' : List Loop} {x x' : Lower α} {f f' : α → Lower β} :
    R ls α x x' → (∀ a, R ls' β (f a) (f' a)) → R (ls ++ ls') β (x >>= f) (x' >>= f')
  throw {α : Type} (ls : List Loop) (e : Failure) :
    R ls α (MonadExcept.throw e) (MonadExcept.throw e)
  framed {ls : List Loop} {x x' : Lower Code} :
    R ls Code x x' → R ls Code (Lower.framed x) (Lower.framed x')
  allocate (construct : String) (pos : Position) :
    R [] _ (ctx.allocate construct pos) (ctx'.allocate construct pos)
  home (v : Variable) : R [] _ (ctx.home v) (ctx'.home v)
  homeOf (v : Variable) : R [] _ (Context.homeOf v) (Context.homeOf v)
  expr (origin : Origin) (e : Resolved.Expr) : R [] _ (ctx.expr origin e) (ctx'.expr origin e)
  exprs (origin : Origin) (es : List Resolved.Expr) :
    R [] _ (ctx.exprs origin es) (ctx'.exprs origin es)
  exprInto (origin : Origin) (e : Resolved.Expr) (r : Register) :
    R [] _ (ctx.exprInto origin e r) (ctx'.exprInto origin e r)
  releaseAll (xs : List Value) : R [] _ (Context.releaseAll xs) (Context.releaseAll xs)
  conditional : R [] _ Lower.nextConditional Lower.nextConditional
  loop (pos : Position) (body : List Resolved.Stmt) :
    R [⟨pos, body⟩] _ (ctx.checkLoop pos body >>= fun _ => Lower.nextLoop)
      (ctx'.checkLoop pos body >>= fun _ => Lower.nextLoop)
  call (f : String) :
    R [] _ (modify fun s => { s with liveAtCalls := s.liveAtCalls ++ [(f, s.pool.live)] })
      (modify fun s => { s with liveAtCalls := s.liveAtCalls ++ [(f, s.pool.live)] })
  parameter (f : String) (index : Int) (r : Register) :
    R [] _ (modify fun s => { s with parameters := s.parameters ++ [((f, index), r)] })
      (modify fun s => { s with parameters := s.parameters ++ [((f, index), r)] })

namespace Lower.Congruence

variable {ctx ctx' : Context} {R : List Loop → (α : Type) → Lower α → Lower α → Prop}
  (h : Congruence ctx ctx' R)

include h

/-- A step without loops before others. -/
theorem before {α β : Type} {ls : List Loop} {x x' : Lower α} {f f' : α → Lower β}
    (hx : R [] α x x') (hf : ∀ a, R ls β (f a) (f' a)) : R ls β (x >>= f) (x' >>= f') :=
  h.bind hx hf

/-- A step without loops after others. -/
theorem after {α β : Type} {ls : List Loop} {x x' : Lower α} {f f' : α → Lower β}
    (hx : R ls α x x') (hf : ∀ a, R [] β (f a) (f' a)) : R ls β (x >>= f) (x' >>= f') := by
  simpa using h.bind hx hf

mutual

theorem stmt : ∀ st : Resolved.Stmt,
    R (Resolved.Stmt.loops [st]) Code (ctx.stmt st) (ctx'.stmt st)
  | .define pos v e => by
    rw [Context.stmt, Context.stmt]
    exact h.before (h.home v) fun r => h.before (h.exprInto _ e r) fun _ => h.pure _
  | .assign pos v e => by
    rw [Context.stmt, Context.stmt]
    exact h.before (h.homeOf v) fun r => h.before (h.exprInto _ e r) fun _ => h.pure _
  | .block body => by
    rw [Context.stmt, Context.stmt, Resolved.Stmt.loops_block]
    exact h.after (h.framed (stmts body)) fun _ => h.pure _
  | .call pos f args => by
    rw [Context.stmt, Context.stmt]
    refine h.before ?_ fun _ => h.pure _
    exact h.before (h.exprs _ args) fun r => h.before (h.call f.name) fun _ =>
      h.before (h.releaseAll r.1) fun _ => h.pure _
  | .loop pos body => by
    rw [Context.stmt, Context.stmt, Resolved.Stmt.loops_loop, ← bind_assoc, ← bind_assoc]
    exact h.bind (h.loop pos body) fun _ => h.after (h.framed (stmts body)) fun _ => h.pure _
  | .ifThen pos e body => by
    simp only [Context.stmt, Resolved.Stmt.loops_ifThen]
    exact h.before h.conditional fun _ => h.before (h.expr _ e) fun _ =>
      h.before (h.releaseAll _) fun _ => h.after (h.framed (stmts body)) fun _ => h.pure _
  | .ifElse pos e thenBody elseBody => by
    simp only [Context.stmt, Resolved.Stmt.loops_ifElse]
    exact h.before h.conditional fun _ => h.before (h.expr _ e) fun _ =>
      h.before (h.releaseAll _) fun _ => h.bind (h.framed (stmts thenBody)) fun _ =>
        h.after (h.framed (stmts elseBody)) fun _ => h.pure _
  | .read pos device property targetPos v => by
    simp only [Context.stmt]
    exact h.before (h.homeOf v) fun _ => h.pure _
  | .write pos e device property => by
    simp only [Context.stmt]
    exact h.before (h.expr _ e) fun _ => h.before (h.releaseAll _) fun _ => h.pure _
  | .yield pos => by
    rw [Context.stmt, Context.stmt]
    exact h.pure _

theorem stmts : ∀ sts : List Resolved.Stmt,
    R (Resolved.Stmt.loops sts) Code (ctx.stmts sts) (ctx'.stmts sts)
  | [] => by
    rw [Context.stmts, Context.stmts]
    exact h.pure _
  | st :: sts => by
    rw [Context.stmts, Context.stmts, Resolved.Stmt.loops_cons]
    exact h.bind (stmt st) fun _ => h.after (stmts sts) fun _ => h.pure _

end

theorem parameters (f : String) (index : Int) (vs : List Variable) :
    R [] _ (ctx.parameters f index vs) (ctx'.parameters f index vs) := by
  induction vs generalizing index with
  | nil => exact h.pure _
  | cons v vs ih =>
    exact h.before (h.home v) fun r => h.before (h.parameter f index r) fun _ => ih _

theorem returnAddress (origin : Origin) (f : String) (makesCalls : Bool) :
    R [] _ (ctx.returnAddress origin f makesCalls) (ctx'.returnAddress origin f makesCalls) := by
  cases makesCalls with
  | true => exact h.before (h.allocate _ _) fun _ => h.pure _
  | false => exact h.pure _

theorem inSourceOrder (sections : List Section) (fs : List Resolved.Function) :
    R [] _ (Context.inSourceOrder sections fs) (Context.inSourceOrder sections fs) := by
  induction fs with
  | nil => exact h.pure _
  | cons f fs ih =>
    rw [Context.inSourceOrder]
    cases sections.find? (·.name = f.name) with
    | none => exact h.throw _ _
    | some sect => exact h.before ih fun _ => h.pure _

end Lower.Congruence

/-! ## Other options -/

namespace Context

/-- Of the options, statements depend on what is to be done about loops that never yield, and on
how deep a `yield` is looked for. -/
theorem congruence_withOptions (ctx : Context) (options : Options)
    (hyield : options.requireYield = ctx.options.requireYield)
    (hlimits : options.limits = ctx.options.limits) :
    Lower.Congruence ctx { ctx with options } fun _ _ x x' => x' = x where
  pure _ := rfl
  bind := by
    rintro _ _ _ _ x _ f f' rfl hf
    rw [funext hf]
  throw _ _ := rfl
  framed := congrArg Lower.framed
  allocate _ _ := rfl
  home _ := rfl
  homeOf _ := rfl
  expr _ _ := rfl
  exprs _ _ := rfl
  exprInto _ _ _ := rfl
  releaseAll _ := rfl
  conditional := rfl
  loop pos body := by
    simp only [checkLoop, search, hyield, hlimits]
    rfl
  call _ := rfl
  parameter _ _ _ := rfl

variable (ctx : Context) (options : Options)
  (hyield : options.requireYield = ctx.options.requireYield)
  (hlimits : options.limits = ctx.options.limits)

include hyield hlimits

theorem stmt_withOptions (st : Resolved.Stmt) :
    ({ ctx with options } : Context).stmt st = ctx.stmt st :=
  (congruence_withOptions ctx options hyield hlimits).stmt st

theorem stmts_withOptions (sts : List Resolved.Stmt) :
    ({ ctx with options } : Context).stmts sts = ctx.stmts sts :=
  (congruence_withOptions ctx options hyield hlimits).stmts sts

theorem parameters_withOptions :
    ({ ctx with options } : Context).parameters = ctx.parameters := by
  funext f index vs
  exact (congruence_withOptions ctx options hyield hlimits).parameters f index vs

end Context

end Chipwright.Lowering
