import Chipwright.Proofs.Basics
import Chipwright.Resolved.Resolver

/-!
# What a step of resolving can do

A step of resolving that succeeds is taken apart into the steps that it is made of, one lemma
for each form of statement. Scopes only ever grow by variables, at the end of the innermost
one: `Scopes.extend`.
-/
namespace Chipwright

/-- Scopes after variables have been defined in the innermost one. -/
def Scopes.extend (vs : List Variable) (s : Scopes Binding) : Scopes Binding :=
  { s with
    inner := { s.inner with entries := s.inner.entries ++ vs.map fun v => (v.name, .var v) } }

@[simp] theorem Scopes.extend_nil (s : Scopes Binding) : s.extend [] = s := by
  simp [extend]

theorem Scopes.extend_append (s : Scopes Binding) (vs vs' : List Variable) :
    s.extend (vs ++ vs') = (s.extend vs).extend vs' := by
  simp [extend]

@[simp] theorem Scopes.extend_depth (s : Scopes Binding) (vs : List Variable) :
    (s.extend vs).depth = s.depth := rfl

@[simp] theorem Scopes.enter_depth (s : Scopes Binding) (kind : ScopeKind) :
    (s.enter kind).depth = s.depth + 1 := rfl

@[simp] theorem Scopes.leave_extend_enter (s : Scopes Binding) (kind : ScopeKind)
    (vs : List Variable) : ((s.enter kind).extend vs).leave = s := rfl

/-- A name that is not in a scope yet can be added to it. -/
theorem Scope.nodup_append {scope : Scope Binding} {x : String} {b : Binding}
    (hnodup : scope.names.Nodup) (h : scope.find? x = none) :
    ((scope.entries ++ [(x, b)]).map Prod.fst).Nodup := by
  have hx : x ∉ scope.entries.map Prod.fst := by
    intro hx
    obtain ⟨⟨x, b'⟩, hb', rfl⟩ := List.mem_map.1 hx
    rw [Scope.find?, lookup_eq_some_of_mem hnodup hb'] at h
    cases h
  rw [List.map_append]
  refine List.nodup_append'.2 ⟨hnodup, by simp, ?_⟩
  simpa using hx

namespace Resolved.Context

variable {pos : Position} {x : Name} {e : Chipwright.Expr} {body sts : List Chipwright.Stmt}
  {st : Chipwright.Stmt}

variable {ctx : Context} {scopes : Scopes Binding} {env env' : Env}

theorem fail_eq_ok {α : Type} {cause : Cause} {a : α} : ctx.fail pos cause = .ok a ↔ False := by
  simp [fail]

theorem lookup_eq_ok {b : Binding} :
    ctx.lookup scopes x = .ok b ↔ scopes.lookup? x.text = some b := by
  unfold lookup
  cases scopes.lookup? x.text with
  | none => simp [fail_eq_ok]
  | some b' => simp

theorem value_eq_ok {e : Expr} (h : ctx.value scopes x = .ok e) :
    (∃ v, scopes.lookup? x.text = some (.var v) ∧ e = .var x.pos v) ∨
      ∃ c, scopes.lookup? x.text = some (.const c) ∧ e = .const x.pos c := by
  simp only [value, bind_eq_ok, lookup_eq_ok] at h
  obtain ⟨b, hb, h⟩ := h
  cases b with
  | var v =>
    cases h
    exact Or.inl ⟨v, hb, rfl⟩
  | const c =>
    cases h
    exact Or.inr ⟨c, hb, rfl⟩
  | device d => cases h
  | func f => cases h

theorem target_eq_ok {v : Variable} (h : ctx.target scopes x = .ok v) :
    scopes.lookup? x.text = some (.var v) := by
  simp only [target, bind_eq_ok, lookup_eq_ok] at h
  obtain ⟨b, hb, h⟩ := h
  cases b <;> cases h
  exact hb

theorem callee_eq_ok {f : FunctionHead} (h : ctx.callee scopes x = .ok f) :
    scopes.lookup? x.text = some (.func f) := by
  simp only [callee, bind_eq_ok, lookup_eq_ok] at h
  obtain ⟨b, hb, h⟩ := h
  cases b <;> cases h
  exact hb

theorem device_eq_ok {d : Chipwright.Device} {d' : Device} (h : ctx.device scopes d = .ok d') :
    (∃ pos slot, d = .direct pos slot ∧ d' = .direct pos slot) ∨
      ∃ x name, d = .named x ∧ scopes.lookup? x.text = some (.device name) ∧
        d' = .named x.pos name := by
  cases d with
  | direct pos slot =>
    cases h
    exact Or.inl ⟨pos, slot, rfl, rfl⟩
  | named x =>
    simp only [device, bind_eq_ok, lookup_eq_ok] at h
    obtain ⟨b, hb, h⟩ := h
    cases b <;> cases h
    exact Or.inr ⟨x, _, rfl, hb, rfl⟩

theorem newVariable_eq_ok {v : Variable} (h : ctx.newVariable x env = .ok (v, env')) :
    v = ⟨env.next, x.text, x.pos, env.scopes.depth, ctx.function⟩ ∧
      env.scopes.inner.find? x.text = none ∧ env' = ⟨env.scopes.extend [v], env.next + 1⟩ := by
  simp only [newVariable, bind_eq_ok, pure_eq_ok, Prod.mk.injEq, Scopes.define] at h
  obtain ⟨scopes, hscopes, rfl, rfl⟩ := h
  split at hscopes
  · cases hscopes
  · rename_i hnone
    cases hscopes
    exact ⟨rfl, hnone, rfl⟩

theorem newVariables_cons_eq_ok {xs : List Name} {vs : List Variable}
    (h : ctx.newVariables (x :: xs) env = .ok (vs, env')) :
    ∃ v env₁ vs', ctx.newVariable x env = .ok (v, env₁) ∧
      ctx.newVariables xs env₁ = .ok (vs', env') ∧ vs = v :: vs' := by
  simp only [newVariables, bind_eq_ok, pure_eq_ok, Prod.mk.injEq] at h
  obtain ⟨⟨v, env₁⟩, h₁, ⟨vs', env₂⟩, h₂, rfl, rfl⟩ := h
  exact ⟨v, env₁, vs', h₁, h₂, rfl⟩

theorem inScope_eq_ok {α : Type} {kind : ScopeKind} {step : Env → Except Failure (α × Env)}
    {a : α} (h : inScope kind env step = .ok (a, env')) :
    ∃ inner, step { env with scopes := env.scopes.enter kind } = .ok (a, inner) ∧
      env' = { inner with scopes := inner.scopes.leave } := by
  simp only [inScope, bind_eq_ok, pure_eq_ok, Prod.mk.injEq] at h
  obtain ⟨⟨a', inner⟩, hstep, rfl, rfl⟩ := h
  exact ⟨inner, hstep, rfl⟩

/-! ## Expressions -/

theorem expr_not_eq_ok {e' : Expr} (h : ctx.expr scopes (.not pos e) = .ok e') :
    ∃ e₁, ctx.expr scopes e = .ok e₁ ∧ e' = .not pos e₁ := by
  simp only [expr, bind_eq_ok, pure_eq_ok] at h
  obtain ⟨e₁, he₁, rfl⟩ := h
  exact ⟨e₁, he₁, rfl⟩

theorem expr_binary_eq_ok {op : BinaryOp} {left right : Chipwright.Expr} {e' : Expr}
    (h : ctx.expr scopes (.binary op left right) = .ok e') :
    ∃ e₁ e₂, ctx.expr scopes left = .ok e₁ ∧ ctx.expr scopes right = .ok e₂ ∧
      e' = .binary op e₁ e₂ := by
  simp only [expr, bind_eq_ok, pure_eq_ok] at h
  obtain ⟨e₁, he₁, e₂, he₂, rfl⟩ := h
  exact ⟨e₁, e₂, he₁, he₂, rfl⟩

theorem exprs_cons_eq_ok {es : List Chipwright.Expr} {es' : List Expr}
    (h : ctx.exprs scopes (e :: es) = .ok es') :
    ∃ e₁ es₁, ctx.expr scopes e = .ok e₁ ∧ ctx.exprs scopes es = .ok es₁ ∧ es' = e₁ :: es₁ := by
  simp only [exprs, bind_eq_ok, pure_eq_ok] at h
  obtain ⟨e₁, he₁, es₁, hes₁, rfl⟩ := h
  exact ⟨e₁, es₁, he₁, hes₁, rfl⟩

theorem length_of_exprs {es : List Chipwright.Expr} {es' : List Expr}
    (h : ctx.exprs scopes es = .ok es') : es'.length = es.length := by
  induction es generalizing es' with
  | nil =>
    cases h
    rfl
  | cons e es ih =>
    obtain ⟨e₁, es₁, -, hes₁, rfl⟩ := exprs_cons_eq_ok h
    rw [List.length_cons, List.length_cons, ih hes₁]

/-! ## Statements -/

variable {st' : Stmt}

attribute [local simp] stmt stmts

theorem stmt_define_eq_ok (h : ctx.stmt (.define pos x e) env = .ok (st', env')) :
    ∃ e' v, ctx.expr env.scopes e = .ok e' ∧ ctx.newVariable x env = .ok (v, env') ∧
      st' = .define pos v e' := by
  simp only [stmt, bind_eq_ok, pure_eq_ok, Prod.mk.injEq] at h
  obtain ⟨e', he', ⟨v, env₁⟩, hv, rfl, rfl⟩ := h
  exact ⟨e', v, he', hv, rfl⟩

theorem stmt_assign_eq_ok (h : ctx.stmt (.assign x e) env = .ok (st', env')) :
    ∃ e' v, ctx.expr env.scopes e = .ok e' ∧ env.scopes.lookup? x.text = some (.var v) ∧
      st' = .assign x.pos v e' ∧ env' = env := by
  simp only [stmt, bind_eq_ok, pure_eq_ok, Prod.mk.injEq] at h
  obtain ⟨e', he', v, hv, rfl, rfl⟩ := h
  exact ⟨e', v, he', target_eq_ok hv, rfl, rfl⟩

theorem stmt_block_eq_ok (h : ctx.stmt (.block pos body) env = .ok (st', env')) :
    ∃ body' inner,
      ctx.stmts body { env with scopes := env.scopes.enter .block } = .ok (body', inner) ∧
      st' = .block body' ∧ env' = { inner with scopes := inner.scopes.leave } := by
  simp only [stmt, bind_eq_ok, pure_eq_ok, Prod.mk.injEq] at h
  obtain ⟨⟨body', env₁⟩, hbody, rfl, rfl⟩ := h
  obtain ⟨inner, hinner, rfl⟩ := inScope_eq_ok hbody
  exact ⟨body', inner, hinner, rfl, rfl⟩

theorem stmt_call_eq_ok {args : List Chipwright.Expr}
    (h : ctx.stmt (.call x args) env = .ok (st', env')) :
    ∃ f args', env.scopes.lookup? x.text = some (.func f) ∧ args.length = f.arity ∧
      ctx.exprs env.scopes args = .ok args' ∧ st' = .call x.pos f args' ∧ env' = env := by
  simp only [stmt, bind_eq_ok] at h
  obtain ⟨f, hf, h⟩ := h
  split at h
  · simp only [bind_eq_ok, fail_eq_ok, false_and, exists_false] at h
  · rename_i harity
    simp only [bind_eq_ok, pure_eq_ok, Prod.mk.injEq] at h
    obtain ⟨args', hargs', rfl, rfl⟩ := h
    exact ⟨f, args', callee_eq_ok hf, not_not.1 harity, hargs', rfl, rfl⟩

theorem stmt_loop_eq_ok {bodyPos : Position}
    (h : ctx.stmt (.loop pos bodyPos body) env = .ok (st', env')) :
    ∃ body' inner,
      ctx.stmts body { env with scopes := env.scopes.enter .loop } = .ok (body', inner) ∧
      st' = .loop pos body' ∧ env' = { inner with scopes := inner.scopes.leave } := by
  simp only [stmt, bind_eq_ok, pure_eq_ok, Prod.mk.injEq] at h
  obtain ⟨⟨body', env₁⟩, hbody, rfl, rfl⟩ := h
  obtain ⟨inner, hinner, rfl⟩ := inScope_eq_ok hbody
  exact ⟨body', inner, hinner, rfl, rfl⟩

theorem stmt_ifThen_eq_ok {thenPos : Position}
    (h : ctx.stmt (.ifThen pos e thenPos body) env = .ok (st', env')) :
    ∃ e' body' inner, ctx.expr env.scopes e = .ok e' ∧
      ctx.stmts body { env with scopes := env.scopes.enter .if_ } = .ok (body', inner) ∧
      st' = .ifThen pos e' body' ∧ env' = { inner with scopes := inner.scopes.leave } := by
  simp only [stmt, bind_eq_ok, pure_eq_ok, Prod.mk.injEq] at h
  obtain ⟨e', he', ⟨body', env₁⟩, hbody, rfl, rfl⟩ := h
  obtain ⟨inner, hinner, rfl⟩ := inScope_eq_ok hbody
  exact ⟨e', body', inner, he', hinner, rfl, rfl⟩

theorem stmt_ifElse_eq_ok {thenPos elsePos : Position} {thenBody elseBody : List Chipwright.Stmt}
    (h : ctx.stmt (.ifElse pos e thenPos thenBody elsePos elseBody) env = .ok (st', env')) :
    ∃ e' thenBody' inner elseBody' inner', ctx.expr env.scopes e = .ok e' ∧
      ctx.stmts thenBody { env with scopes := env.scopes.enter .if_ } = .ok (thenBody', inner) ∧
      ctx.stmts elseBody
        { inner with scopes := inner.scopes.leave.enter .else_ } = .ok (elseBody', inner') ∧
      st' = .ifElse pos e' thenBody' elseBody' ∧
      env' = { inner' with scopes := inner'.scopes.leave } := by
  simp only [stmt, bind_eq_ok, pure_eq_ok, Prod.mk.injEq] at h
  obtain ⟨e', he', ⟨thenBody', env₁⟩, hthen, ⟨elseBody', env₂⟩, helse, rfl, rfl⟩ := h
  obtain ⟨inner, hinner, rfl⟩ := inScope_eq_ok hthen
  obtain ⟨inner', hinner', rfl⟩ := inScope_eq_ok helse
  exact ⟨e', thenBody', inner, elseBody', inner', he', hinner, hinner', rfl, rfl⟩

theorem stmt_read_eq_ok {device : Chipwright.Device} {property : String}
    (h : ctx.stmt (.read pos device property x) env = .ok (st', env')) :
    ∃ device' v, ctx.device env.scopes device = .ok device' ∧
      env.scopes.lookup? x.text = some (.var v) ∧
      st' = .read pos device' property x.pos v ∧ env' = env := by
  simp only [stmt, bind_eq_ok, pure_eq_ok, Prod.mk.injEq] at h
  obtain ⟨device', hdevice, _, -, v, hv, rfl, rfl⟩ := h
  exact ⟨device', v, hdevice, target_eq_ok hv, rfl, rfl⟩

theorem stmt_write_eq_ok {device : Chipwright.Device} {property : String}
    (h : ctx.stmt (.write pos e device property) env = .ok (st', env')) :
    ∃ e' device', ctx.expr env.scopes e = .ok e' ∧ ctx.device env.scopes device = .ok device' ∧
      st' = .write pos e' device' property ∧ env' = env := by
  simp only [stmt, bind_eq_ok, pure_eq_ok, Prod.mk.injEq] at h
  obtain ⟨e', he', device', hdevice, _, -, rfl, rfl⟩ := h
  exact ⟨e', device', he', hdevice, rfl, rfl⟩

theorem stmts_cons_eq_ok {sts' : List Stmt} (h : ctx.stmts (st :: sts) env = .ok (sts', env')) :
    ∃ st₁ env₁ sts₁, ctx.stmt st env = .ok (st₁, env₁) ∧ ctx.stmts sts env₁ = .ok (sts₁, env') ∧
      sts' = st₁ :: sts₁ := by
  simp only [stmts, bind_eq_ok, pure_eq_ok, Prod.mk.injEq] at h
  obtain ⟨⟨st₁, env₁⟩, h₁, ⟨sts₁, env₂⟩, h₂, rfl, rfl⟩ := h
  exact ⟨st₁, env₁, sts₁, h₁, h₂, rfl⟩

/-! ## The top level -/

theorem functionItem_eq_ok {head : FunctionHead} {params : List Name} {f : Function}
    (h : ctx.functionItem pos head params body env = .ok (f, env')) :
    ∃ vs env₁ body' inner,
      ({ ctx with function := some head.name } : Context).newVariables params
        { env with scopes := env.scopes.enter .function } = .ok (vs, env₁) ∧
      ({ ctx with function := some head.name } : Context).stmts body env₁ = .ok (body', inner) ∧
      f = ⟨pos, head, vs, body'⟩ ∧ env' = { inner with scopes := inner.scopes.leave } := by
  unfold functionItem at h
  obtain ⟨inner, hinner, rfl⟩ := inScope_eq_ok h
  simp only [bind_eq_ok, pure_eq_ok, Prod.mk.injEq] at hinner
  obtain ⟨⟨vs, env₁⟩, hvs, ⟨body', env₂⟩, hbody, rfl, rfl⟩ := hinner
  exact ⟨vs, env₁, body', env₂, hvs, hbody, rfl, rfl⟩

theorem item_eq_ok {i : Item} (h : ctx.item st env = .ok (i, env')) :
    (∃ pos slotPos slot x, st = .nameSlot pos slotPos slot x ∧
        i = .nameSlot pos slotPos ⟨x.text, x.pos, slot⟩ ∧ env' = env) ∨
      (∃ pos x valuePos value, st = .const pos x valuePos value ∧
        i = .const ⟨x.text, x.pos, value⟩ ∧ env' = env) ∨
      (∃ pos x params bodyPos body f, st = .function pos x params bodyPos body ∧
        ctx.functionItem pos ⟨x.text, x.pos, params.length⟩ params body env = .ok (f, env') ∧
        i = .func f) ∨
      ∃ st', globalBinding? st = none ∧ ctx.stmt st env = .ok (st', env') ∧ i = .stmt st' := by
  cases st with
  | nameSlot pos slotPos slot x =>
    cases h
    exact Or.inl ⟨pos, slotPos, slot, x, rfl, rfl, rfl⟩
  | const pos x valuePos value =>
    cases h
    exact Or.inr (Or.inl ⟨pos, x, valuePos, value, rfl, rfl, rfl⟩)
  | function pos x params bodyPos body =>
    simp only [item, bind_eq_ok, pure_eq_ok, Prod.mk.injEq] at h
    obtain ⟨⟨f, env₁⟩, hf, rfl, rfl⟩ := h
    exact Or.inr (Or.inr (Or.inl ⟨pos, x, params, bodyPos, body, f, rfl, hf, rfl⟩))
  | _ =>
    simp only [item, bind_eq_ok, pure_eq_ok, Prod.mk.injEq] at h
    obtain ⟨⟨st', env₁⟩, hst, rfl, rfl⟩ := h
    exact Or.inr (Or.inr (Or.inr ⟨st', rfl, hst, rfl⟩))

theorem items_cons_eq_ok {is : List Item} (h : ctx.items (st :: sts) env = .ok (is, env')) :
    ∃ i env₁ is₁, ctx.item st env = .ok (i, env₁) ∧ ctx.items sts env₁ = .ok (is₁, env') ∧
      is = i :: is₁ := by
  simp only [items, bind_eq_ok, pure_eq_ok, Prod.mk.injEq] at h
  obtain ⟨⟨i, env₁⟩, h₁, ⟨is₁, env₂⟩, h₂, rfl, rfl⟩ := h
  exact ⟨i, env₁, is₁, h₁, h₂, rfl⟩

/-- The root scope holds what the top level defines for the whole program, each name once. -/
theorem globals_eq_ok {file : String} {scopes' : Scopes Binding}
    (h : globals file sts scopes = .ok scopes') (hnodup : scopes.inner.names.Nodup) :
    scopes'.outer = scopes.outer ∧ scopes'.inner.kind = scopes.inner.kind ∧
      scopes'.inner.entries = scopes.inner.entries ++
        (sts.filterMap globalBinding?).map (fun b => (b.name, b)) ∧
      scopes'.inner.names.Nodup := by
  induction sts generalizing scopes with
  | nil =>
    cases h
    simp [hnodup]
  | cons st sts ih =>
    rw [globals] at h
    split at h
    · rename_i hnone
      rw [List.filterMap_cons_none hnone]
      exact ih h hnodup
    · rename_i b hb
      simp only [bind_eq_ok, Scopes.define] at h
      obtain ⟨scopes₁, hdefine, h⟩ := h
      split at hdefine
      · cases hdefine
      · rename_i hnew
        cases hdefine
        obtain ⟨houter, hkind, hentries, hnames⟩ := ih h (Scope.nodup_append hnodup hnew)
        refine ⟨houter, hkind, ?_, hnames⟩
        rw [hentries, List.filterMap_cons_some hb]
        simp

end Resolved.Context

/-- Resolving a program fills the root scope and then resolves what stands at the top level. -/
theorem Program.resolve_eq_ok {file : String} {strict : Bool} {limits : Limits} {p : Program}
    {r : Resolved.Program} (h : p.resolve file strict limits = .ok r) :
    ∃ scopes env', Resolved.globals file p.statements .root = .ok scopes ∧
      ({ file, strict } : Resolved.Context).items p.statements ⟨scopes, 0⟩ =
        .ok (r.items, env') := by
  simp only [resolve, Resolved.Context.program, bind_eq_ok, pure_eq_ok] at h
  obtain ⟨_, ⟨scopes, hglobals, ⟨is, env'⟩, hitems, rfl⟩, _, -, rfl⟩ := h
  exact ⟨scopes, env', hglobals, hitems⟩

end Chipwright
