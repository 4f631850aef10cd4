import Chipwright.Proofs.Relabeling.Results
import Chipwright.Resolved.Resolver

/-!
# Resolving a program with other names and places

A name is looked up by comparing it with the names in scope, and nothing depends on what it is or
where it stands. So a program with other names and places resolves as before, to the resolved
program with these names and places, or fails for the same reason.
-/
namespace Chipwright

variable {m : Relabeling}

namespace Resolved

/-- The surroundings with other names. -/
def Context.relabel (m : Relabeling) (ctx : Context) : Context :=
  { ctx with function := ctx.function.map m.name }

def Env.relabel (m : Relabeling) (env : Env) : Env := ⟨env.scopes.relabel m, env.next⟩

end Resolved

theorem Scopes.carries_define (file : String) (b : Binding) (s : Scopes Binding) :
    m.Carries (Scopes.relabel m) (s.define (·.place file) b.name b)
      ((s.relabel m).define (·.place file) (b.relabel m).name (b.relabel m)) := by
  have hfind : (s.relabel m).inner.find? (b.relabel m).name =
      (s.inner.find? b.name).map (Binding.relabel m) := by
    rw [Binding.name_relabel]
    exact find?_relabel m s.inner b.name
  unfold define
  rw [hfind]
  cases s.inner.find? b.name with
  | none =>
    refine Matches.ok ?_
    simp [Scopes.relabel, Scope.relabel]
  | some first =>
    refine Matches.error (.diagnostic rfl (fun h => ?_) ?_)
    · simp [Cause.unplaced, h b.name]
    · simpa [Binding.place] using Relabeling.Moves.moved file b.pos

namespace Resolved.Context

variable {ctx : Context} {scopes : Scopes Binding}

theorem carries_fail {α β : Type} {f : α → β} (pos : Position) {c c' : Cause}
    (hform : c'.form = c.form) (htold : m.KeepsNames → c'.unplaced = c.unplaced) :
    m.Carries f (ctx.fail pos c) ((ctx.relabel m).fail (m.pos pos) c') :=
  Matches.error (.located ctx.file pos hform htold)

theorem carries_wrongKind {α β : Type} {f : α → β} (x : Name) (kind expected : String) :
    m.Carries f (ctx.fail x.pos (.wrongKind x.text kind expected))
      ((ctx.relabel m).fail (x.relabel m).pos (.wrongKind (x.relabel m).text kind expected)) :=
  carries_fail x.pos rfl fun h =>
    congrArg (fun text => Cause.wrongKind text kind expected) (h x.text)

theorem carries_lookup (x : Name) :
    m.Carries (Binding.relabel m) (ctx.lookup scopes x)
      ((ctx.relabel m).lookup (scopes.relabel m) (x.relabel m)) := by
  have hlookup : (scopes.relabel m).lookup? (x.relabel m).text = _ :=
    Scopes.lookup?_relabel m scopes x.text
  unfold lookup
  rw [hlookup]
  cases scopes.lookup? x.text with
  | some b => exact .ok b
  | none =>
    refine carries_fail x.pos rfl fun h => ?_
    have htext : (x.relabel m).text = x.text := h x.text
    rw [htext, Scopes.visibleNames_relabel, h.map_name]

theorem carries_value (x : Name) :
    m.Carries (Expr.relabel m) (ctx.value scopes x)
      ((ctx.relabel m).value (scopes.relabel m) (x.relabel m)) := by
  refine (carries_lookup x).andThen fun b => ?_
  cases b with
  | var v => exact Matches.ok rfl
  | const c => exact Matches.ok rfl
  | device d => exact carries_wrongKind x _ _
  | func f => exact carries_wrongKind x _ _

theorem carries_target (x : Name) :
    m.Carries (Variable.relabel m) (ctx.target scopes x)
      ((ctx.relabel m).target (scopes.relabel m) (x.relabel m)) := by
  refine (carries_lookup x).andThen fun b => ?_
  have htold (b : Binding) (h : m.KeepsNames) :
      Cause.immutable (m.name x.text) b.kind = .immutable x.text b.kind := by
    rw [h x.text]
  cases b with
  | var v => exact Matches.ok rfl
  | const c => exact carries_fail x.pos rfl (htold (.const c))
  | device d => exact carries_fail x.pos rfl (htold (.device d))
  | func f => exact carries_wrongKind x _ _

theorem carries_callee (x : Name) :
    m.Carries (FunctionHead.relabel m) (ctx.callee scopes x)
      ((ctx.relabel m).callee (scopes.relabel m) (x.relabel m)) := by
  refine (carries_lookup x).andThen fun b => ?_
  cases b with
  | func f => exact Matches.ok rfl
  | var v | const c | device d => exact carries_wrongKind x _ _

theorem carries_device (d : Chipwright.Device) :
    m.Carries (Device.relabel m) (ctx.device scopes d)
      ((ctx.relabel m).device (scopes.relabel m) (d.relabel m)) := by
  cases d with
  | direct pos slot => exact Matches.ok rfl
  | named x =>
    refine (carries_lookup x).andThen fun b => ?_
    cases b with
    | device d => exact Matches.ok rfl
    | var v | const c | func f => exact carries_wrongKind x _ _

theorem carries_checkProperty (pos : Position) (property : String) :
    m.Carries id (ctx.checkProperty pos property)
      ((ctx.relabel m).checkProperty (m.pos pos) property) := by
  unfold checkProperty
  change Matches _ _ (if _ then _ else _) (if (ctx.strict && _) = true then _ else _)
  split
  · exact carries_fail pos rfl fun _ => rfl
  · exact Matches.ok rfl

theorem carries_expr (e : Chipwright.Expr) :
    m.Carries (Expr.relabel m) (ctx.expr scopes e)
      ((ctx.relabel m).expr (scopes.relabel m) (e.relabel m)) := by
  induction e with
  | literal pos value => exact Matches.ok rfl
  | name x => exact carries_value x
  | not pos e ih => exact ih.andThen fun _ => Matches.ok rfl
  | binary op left right ihl ihr => exact ihl.andThen fun _ => ihr.andThen fun _ => Matches.ok rfl

theorem carries_exprs (es : List Chipwright.Expr) :
    m.Carries (List.map (Expr.relabel m)) (ctx.exprs scopes es)
      ((ctx.relabel m).exprs (scopes.relabel m) (es.map (Chipwright.Expr.relabel m))) := by
  induction es with
  | nil => exact Matches.ok rfl
  | cons e es ih => exact (carries_expr e).andThen fun _ => ih.andThen fun _ => Matches.ok rfl

theorem carries_newVariable (x : Name) (env : Env) :
    m.Carries (Prod.map (Variable.relabel m) (Env.relabel m)) (ctx.newVariable x env)
      ((ctx.relabel m).newVariable (x.relabel m) (env.relabel m)) := by
  have hv : (⟨(env.relabel m).next, (x.relabel m).text, (x.relabel m).pos,
      (env.relabel m).scopes.depth, (ctx.relabel m).function⟩ : Variable) =
        Variable.relabel m ⟨env.next, x.text, x.pos, env.scopes.depth, ctx.function⟩ := by
    rw [Env.relabel, Scopes.depth_relabel]
    rfl
  simp only [newVariable]
  rw [hv]
  exact (Scopes.carries_define ctx.file (.var ⟨env.next, x.text, x.pos, env.scopes.depth,
    ctx.function⟩) env.scopes).andThen fun _ => Matches.ok rfl

theorem carries_newVariables (xs : List Name) (env : Env) :
    m.Carries (Prod.map (List.map (Variable.relabel m)) (Env.relabel m)) (ctx.newVariables xs env)
      ((ctx.relabel m).newVariables (xs.map (Name.relabel m)) (env.relabel m)) := by
  induction xs generalizing env with
  | nil => exact Matches.ok rfl
  | cons x xs ih =>
    exact (carries_newVariable x env).andThen fun _ => (ih _).andThen fun _ => Matches.ok rfl

theorem carries_inScope {α β : Type} {f : α → β} (kind : ScopeKind) (env : Env)
    {step : Env → Except Failure (α × Env)} {step' : Env → Except Failure (β × Env)}
    (h : ∀ env, m.Carries (Prod.map f (Env.relabel m)) (step env) (step' (env.relabel m))) :
    m.Carries (Prod.map f (Env.relabel m)) (inScope kind env step)
      (inScope kind (env.relabel m) step') := by
  refine (h { env with scopes := env.scopes.enter kind }).andThen fun r => Matches.ok ?_
  simp only [Prod.map, Env.relabel, Scopes.leave_relabel]

mutual

theorem carries_stmt : ∀ (st : Chipwright.Stmt) (env : Env),
    m.Carries (Prod.map (Stmt.relabel m) (Env.relabel m)) (ctx.stmt st env)
      ((ctx.relabel m).stmt (st.relabel m) (env.relabel m))
  | .nameSlot _ _ _ x, _ =>
    carries_fail x.pos rfl fun h => congrArg (Cause.misplaced "def") (h x.text)
  | .const _ x _ _, _ =>
    carries_fail x.pos rfl fun h => congrArg (Cause.misplaced "const") (h x.text)
  | .function _ x _ _ _, _ =>
    carries_fail x.pos rfl fun h => congrArg (Cause.misplaced "fn") (h x.text)
  | .define pos x e, env => by
    rw [Chipwright.Stmt.relabel, stmt, stmt]
    exact (carries_expr e).andThen fun _ =>
      (carries_newVariable x env).andThen fun _ => Matches.ok rfl
  | .assign x e, env => by
    rw [Chipwright.Stmt.relabel, stmt, stmt]
    exact (carries_expr e).andThen fun _ => (carries_target x).andThen fun _ => Matches.ok rfl
  | .block pos body, env => by
    rw [Chipwright.Stmt.relabel, stmt, stmt]
    exact (carries_inScope .block env (carries_stmts body)).andThen fun _ => Matches.ok rfl
  | .call x args, env => by
    rw [Chipwright.Stmt.relabel, stmt, stmt]
    refine (carries_callee x).andThen fun f => ?_
    have hcount : (args.map (Chipwright.Expr.relabel m)).length ≠ (f.relabel m).arity ↔
        args.length ≠ f.arity := by
      rw [List.length_map]
      rfl
    simp only [hcount]
    have hrest : m.Carries (List.map (Expr.relabel m)) (ctx.exprs env.scopes args) _ :=
      carries_exprs args
    split
    · refine Relabeling.Carries.andThen (f := id) (carries_fail x.pos rfl fun h => ?_)
        fun _ => hrest.andThen fun _ => Matches.ok rfl
      simp [Cause.unplaced, FunctionHead.relabel, h f.name]
    · exact hrest.andThen fun _ => Matches.ok rfl
  | .loop pos bodyPos body, env => by
    rw [Chipwright.Stmt.relabel, stmt, stmt]
    exact (carries_inScope .loop env (carries_stmts body)).andThen fun _ => Matches.ok rfl
  | .ifThen pos e thenPos body, env => by
    rw [Chipwright.Stmt.relabel, stmt, stmt]
    exact (carries_expr e).andThen fun _ =>
      (carries_inScope .if_ env (carries_stmts body)).andThen fun _ => Matches.ok rfl
  | .ifElse pos e thenPos thenBody elsePos elseBody, env => by
    rw [Chipwright.Stmt.relabel, stmt, stmt]
    exact (carries_expr e).andThen fun _ =>
      (carries_inScope .if_ env (carries_stmts thenBody)).andThen fun _ =>
        (carries_inScope .else_ _ (carries_stmts elseBody)).andThen fun _ => Matches.ok rfl
  | .read pos device property x, env => by
    rw [Chipwright.Stmt.relabel, stmt, stmt]
    exact (carries_device device).andThen fun _ => (carries_checkProperty pos property).andThen
      fun _ => (carries_target x).andThen fun _ => Matches.ok rfl
  | .write pos e device property, env => by
    rw [Chipwright.Stmt.relabel, stmt, stmt]
    exact (carries_expr e).andThen fun _ => (carries_device device).andThen fun _ =>
      (carries_checkProperty pos property).andThen fun _ => Matches.ok rfl
  | .yield pos, env => by
    rw [Chipwright.Stmt.relabel, stmt, stmt]
    exact Matches.ok rfl

theorem carries_stmts : ∀ (sts : List Chipwright.Stmt) (env : Env),
    m.Carries (Prod.map (Stmt.relabelAll m) (Env.relabel m)) (ctx.stmts sts env)
      ((ctx.relabel m).stmts (Chipwright.Stmt.relabelAll m sts) (env.relabel m))
  | [], env => by
    rw [Chipwright.Stmt.relabelAll, stmts, stmts]
    exact Matches.ok rfl
  | st :: sts, env => by
    rw [Chipwright.Stmt.relabelAll, stmts, stmts]
    exact (carries_stmt st env).andThen fun _ =>
      (carries_stmts sts _).andThen fun _ => Matches.ok rfl

end

theorem carries_functionItem (pos : Position) (head : FunctionHead) (params : List Name)
    (body : List Chipwright.Stmt) (env : Env) :
    m.Carries (Prod.map (Function.relabel m) (Env.relabel m))
      (ctx.functionItem pos head params body env)
      ((ctx.relabel m).functionItem (m.pos pos) (head.relabel m) (params.map (Name.relabel m))
        (Chipwright.Stmt.relabelAll m body) (env.relabel m)) := by
  unfold functionItem
  refine carries_inScope .function env fun env => ?_
  have hparams : m.Carries _ (newVariables { ctx with function := some head.name } params env) _ :=
    carries_newVariables params env
  exact hparams.andThen fun _ => (carries_stmts body _).andThen fun _ => Matches.ok rfl

theorem carries_item (st : Chipwright.Stmt) (env : Env) :
    m.Carries (Prod.map (Item.relabel m) (Env.relabel m)) (ctx.item st env)
      ((ctx.relabel m).item (st.relabel m) (env.relabel m)) := by
  have hstmt : m.Carries (Prod.map (Stmt.relabel m) (Env.relabel m)) (ctx.stmt st env) _ :=
    carries_stmt st env
  cases st with
  | nameSlot pos slotPos slot x => exact Matches.ok rfl
  | const pos x valuePos value => exact Matches.ok rfl
  | function pos x params bodyPos body =>
    have hhead : (⟨(x.relabel m).text, (x.relabel m).pos, (params.map (Name.relabel m)).length⟩ :
        FunctionHead) = FunctionHead.relabel m ⟨x.text, x.pos, params.length⟩ := by
      rw [List.length_map]
      rfl
    rw [Chipwright.Stmt.relabel, item, item, hhead]
    exact (carries_functionItem pos _ params body env).andThen fun _ => Matches.ok rfl
  | _ => exact hstmt.andThen fun _ => Matches.ok rfl

theorem carries_items (sts : List Chipwright.Stmt) (env : Env) :
    m.Carries (Prod.map (List.map (Item.relabel m)) (Env.relabel m)) (ctx.items sts env)
      ((ctx.relabel m).items (Chipwright.Stmt.relabelAll m sts) (env.relabel m)) := by
  induction sts generalizing env with
  | nil => exact Matches.ok rfl
  | cons st sts ih =>
    exact (carries_item st env).andThen fun _ => (ih _).andThen fun _ => Matches.ok rfl

end Resolved.Context

namespace Resolved

theorem globalBinding?_relabel (st : Chipwright.Stmt) :
    globalBinding? (st.relabel m) = (globalBinding? st).map (Binding.relabel m) := by
  cases st <;> simp [Chipwright.Stmt.relabel, globalBinding?, Binding.relabel, DeviceName.relabel,
    Constant.relabel, FunctionHead.relabel, Name.relabel]

theorem carries_globals (file : String) (sts : List Chipwright.Stmt) (scopes : Scopes Binding) :
    m.Carries (Scopes.relabel m) (globals file sts scopes)
      (globals file (Chipwright.Stmt.relabelAll m sts) (scopes.relabel m)) := by
  induction sts generalizing scopes with
  | nil => exact Matches.ok rfl
  | cons st sts ih =>
    rw [Chipwright.Stmt.relabelAll, globals, globals, globalBinding?_relabel]
    cases globalBinding? st with
    | none => exact ih scopes
    | some b => exact (Scopes.carries_define file b scopes).andThen fun _ => ih _

/-- A program with other names and places resolves to the resolved program with these. -/
theorem Context.carries_program (file : String) (strict : Bool) (p : Chipwright.Program) :
    m.Carries (Program.relabel m) (Context.program { file, strict } p)
      (Context.program { file, strict } (p.relabel m)) := by
  refine (carries_globals file p.statements .root).andThen fun scopes => ?_
  have hitems : m.Carries _ (Context.items { file, strict } p.statements ⟨scopes, 0⟩) _ :=
    carries_items p.statements ⟨scopes, 0⟩
  exact hitems.andThen fun _ => Matches.ok rfl

end Resolved

end Chipwright
