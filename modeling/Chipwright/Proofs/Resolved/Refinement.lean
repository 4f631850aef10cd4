import Chipwright.Proofs.Resolved.Agreement

/-!
# Programs and their resolved form

A program and its resolved form run in the same way, as long as the run of the program has a
meaning. Statement by statement, both keep the agreement of scopes, memory and store; a round of a
loop and the body of a function are runs with a smaller bound.
-/
namespace Chipwright

variable {env env' : Resolved.Env}

variable {V : Type} {μ : Memory V} {ground : List (String × Binding)} {scopes : Scopes Binding}
  {s : Store V} {x : String} {a : V}

/-- A function was resolved in the middle of the top level. -/
def Resolved.Function.ComesFrom (ground : List (String × Binding)) (params : List Name)
    (body : List Chipwright.Stmt) (f : Resolved.Function) : Prop :=
  ∃ (ctx : Resolved.Context) (pos : Position) (head : FunctionHead) (env env' : Resolved.Env),
    ctx.functionItem pos head params body env = .ok (f, env') ∧ env.scopes.outer = [] ∧
      env.scopes.Grounded ground

/-- The constants, devices and functions of a program are those of its resolved form. -/
structure Program.Grounded (p : Program) (r : Resolved.Program)
    (ground : List (String × Binding)) : Prop extends Ground r ground where
  constant : ∀ x c, p.constant? x = some c → ∃ k, (x, Binding.const k) ∈ ground ∧ k.value = c
  device : ∀ x slot, p.slot? (.named x) = some slot →
    ∃ d, (x.text, Binding.device d) ∈ ground ∧ d.slot = slot
  function : ∀ x params body, p.function? x = some (params, body) →
    ∃ f, r.function? x = some f ∧ f.ComesFrom ground params body

namespace Program.Grounded

variable {p : Program} {r : Resolved.Program} {w : World V} {ctx : Resolved.Context}

/-- A name that is not resolved to a variable belongs to the top level. -/
theorem eq_of_lookup? (hp : p.Grounded r ground) (h : Agrees ground μ scopes s) {b b' : Binding}
    (hb : scopes.lookup? x = some b) (hb' : (x, b') ∈ ground) :
    b = b' ∨ ∃ v, b = .var v ∧ μ v ≠ none := by
  rcases h.blocks.cases_of_lookup? hb with hmem | ⟨v, rfl, -, -, -, hvalue⟩
  · exact Or.inl (eq_of_mem_of_mem hp.nodup hmem hb')
  · exact Or.inr ⟨v, rfl, hvalue⟩

theorem eval_eq_some (hp : p.Grounded r ground) (h : Agrees ground μ scopes s) {e : Expr}
    {e' : Resolved.Expr} (he : ctx.expr scopes e = .ok e') (ha : e.eval w p s = some a) :
    e'.eval w μ = some a := by
  induction e generalizing e' a with
  | literal pos c =>
    cases he
    exact ha
  | name x =>
    rw [Expr.eval, Option.or_eq_some_iff, Option.map_eq_some_iff] at ha
    rcases Resolved.Context.value_eq_ok he with ⟨v, hv, rfl⟩ | ⟨c, hc, rfl⟩
    · rw [h.find?_eq hp.toGround hv] at ha
      rcases ha with hvalue | ⟨hnone, c, hc, rfl⟩
      · exact hvalue
      · obtain ⟨k, hk, -⟩ := hp.constant _ c hc
        rcases hp.eq_of_lookup? h hv hk with heq | ⟨v', heq, hvalue⟩
        · cases heq
        · cases heq
          exact absurd hnone hvalue
    · rw [h.find?_eq hp.toGround hc] at ha
      rcases ha with hvalue | ⟨-, c', hc', rfl⟩
      · cases hvalue
      · obtain ⟨k, hk, rfl⟩ := hp.constant _ c' hc'
        rcases hp.eq_of_lookup? h hc hk with heq | ⟨v', heq, -⟩
        · cases heq
          rfl
        · cases heq
  | not pos e ih =>
    obtain ⟨e₁, he₁, rfl⟩ := Resolved.Context.expr_not_eq_ok he
    obtain ⟨a₁, ha₁, rfl⟩ := Option.map_eq_some_iff.1 ha
    rw [Resolved.Expr.eval, ih he₁ ha₁, Option.map_some]
  | binary op left right ihl ihr =>
    obtain ⟨e₁, e₂, he₁, he₂, rfl⟩ := Resolved.Context.expr_binary_eq_ok he
    obtain ⟨a₁, ha₁, ha⟩ := Option.bind_eq_some_iff.1 ha
    obtain ⟨a₂, ha₂, ha⟩ := Option.bind_eq_some_iff.1 ha
    rw [Resolved.Expr.eval, ihl he₁ ha₁, ihr he₂ ha₂]
    exact ha

theorem evalAll_eq_some (hp : p.Grounded r ground) (h : Agrees ground μ scopes s)
    {es : List Expr} {es' : List Resolved.Expr} {as : List V}
    (hes : ctx.exprs scopes es = .ok es') (has : Expr.evalAll w p s es = some as) :
    Resolved.Expr.evalAll w μ es' = some as := by
  induction es generalizing es' as with
  | nil =>
    cases hes
    exact has
  | cons e es ih =>
    obtain ⟨e₁, es₁, he₁, hes₁, rfl⟩ := Resolved.Context.exprs_cons_eq_ok hes
    obtain ⟨a, ha, has⟩ := Option.bind_eq_some_iff.1 has
    obtain ⟨as₁, has₁, has⟩ := Option.bind_eq_some_iff.1 has
    rw [Resolved.Expr.evalAll, hp.eval_eq_some h he₁ ha, ih hes₁ has₁]
    exact has

theorem slot_eq (hp : p.Grounded r ground) (h : Agrees ground μ scopes s) {d : Device}
    {d' : Resolved.Device} {slot : Slot} (hd : ctx.device scopes d = .ok d')
    (hslot : p.slot? d = some slot) : d'.slot = slot := by
  rcases Resolved.Context.device_eq_ok hd with ⟨pos, slot', rfl, rfl⟩ | ⟨x, name, rfl, hx, rfl⟩
  · exact Option.some.inj hslot
  · obtain ⟨k, hk, rfl⟩ := hp.device x slot hslot
    rcases hp.eq_of_lookup? h hx hk with heq | ⟨v, heq, -⟩
    · cases heq
      rfl
    · cases heq

end Program.Grounded

/-- The parameters of a function have the names that are given. -/
theorem Resolved.Context.names_of_newVariables {ctx : Resolved.Context} {xs : List Name}
    {vs : List Variable} (h : ctx.newVariables xs env = .ok (vs, env')) :
    xs.map Name.text = vs.map Variable.name := by
  induction xs generalizing env vs with
  | nil =>
    cases h
    rfl
  | cons x xs ih =>
    obtain ⟨v, env₁, vs', h₁, h₂, rfl⟩ := newVariables_cons_eq_ok h
    obtain ⟨rfl, -, -⟩ := newVariable_eq_ok h₁
    rw [List.map_cons, List.map_cons, ih h₂]

theorem Resolved.Context.stmts_singleton {ctx : Resolved.Context} {st : Chipwright.Stmt}
    {st' : Resolved.Stmt} (h : ctx.stmt st env = .ok (st', env')) :
    ctx.stmts [st] env = .ok ([st'], env') := by
  simp only [stmts, bind_eq_ok, pure_eq_ok, Prod.mk.injEq]
  exact ⟨(st', env'), h, ([], env'), rfl, rfl, rfl⟩

/-- What is known of a function that was resolved in the middle of the top level. -/
theorem Resolved.Function.ComesFrom.resolved {params : List Name} {body : List Chipwright.Stmt}
    {f : Resolved.Function} (h : f.ComesFrom ground params body) :
    ∃ (ctx : Resolved.Context) (scopes : Scopes Binding) (env inner : Resolved.Env),
      scopes.outer = [] ∧ scopes.Grounded ground ∧
      env.scopes = (scopes.enter .function).extend f.params ∧
      params.map Name.text = f.params.map Variable.name ∧
      (f.params.map Variable.name).Nodup ∧ (∀ v ∈ f.params, v.depth = 1) ∧
      ctx.stmts body env = .ok (f.body, inner) := by
  obtain ⟨ctx, pos, head, env, env', hf, houter, hgrounded⟩ := h
  obtain ⟨vs, env₁, body', inner, hvs, hbody, rfl, -⟩ := Resolved.Context.functionItem_eq_ok hf
  have hparams := Resolved.Context.introduces_of_newVariables hvs
  have hnodup := hparams.names List.nodup_nil
  have hscope : env₁.scopes.inner.names = vs.map Variable.name := by
    rw [hparams.scopes, Scope.names]
    simp [Scopes.extend, Scopes.enter, Function.comp_def]
  refine ⟨_, env.scopes, env₁, inner, houter, hgrounded, hparams.scopes,
    Resolved.Context.names_of_newVariables hvs, hscope ▸ hnodup, fun v hv => ?_, hbody⟩
  rw [hparams.level v hv, Scopes.enter_depth, Scopes.depth, houter]
  rfl

/-- Two ways to execute statements, before and after resolving, keep the agreement. -/
def Lockstep (ground : List (String × Binding)) (again : List Stmt → Execution V)
    (again' : List Resolved.Stmt → Resolved.Execution V) : Prop :=
  ∀ {ctx : Resolved.Context} {sts : List Stmt} {env env' : Resolved.Env}
    {sts' : List Resolved.Stmt} {μ : Memory V} {s : Store V} (t : List (Event V)),
    ctx.stmts sts env = .ok (sts', env') → env'.scopes.Grounded ground →
    Agrees ground μ env.scopes s →
    Outcome.Refines (fun s' μ' => Agrees ground μ' env'.scopes s') (again sts s t) (again' sts' μ t)

/-- The end of a block. -/
theorem Outcome.Refines.leave {kind : ScopeKind} {vs : List Variable} {inner : Scopes Binding}
    {y : Outcome V (Store V)} {z : Outcome V (Memory V)}
    (h : Refines (fun s' μ' => Agrees ground μ' inner s') y z)
    (hinner : inner = (scopes.enter kind).extend vs) :
    Refines (fun s' μ' => Agrees ground μ' inner.leave s')
      (y.bind fun s t => .done s.leave t) z := by
  subst hinner
  cases h with
  | done t hagrees => exact .done t hagrees.leave
  | cut t => exact .cut t
  | undefined z => exact .undefined z

namespace Program.Grounded

variable {p : Program} {r : Resolved.Program} {w : World V} {again : List Stmt → Execution V}
  {again' : List Resolved.Stmt → Resolved.Execution V}

/-- A call: the body of the function is executed in the same way on both sides. -/
theorem refines_call (hp : p.Grounded r ground) (hagain : Lockstep ground again again')
    (h : Agrees ground μ scopes s) {f : String} {params : List Name} {body : List Stmt}
    {as : List V} (hf : p.function? f = some (params, body)) (hlength : as.length = params.length)
    (t : List (Event V)) :
    ∃ g, r.function? f = some g ∧ as.length = g.params.length ∧
      Outcome.Refines (fun s' μ' => Agrees ground μ' scopes s')
        ((again body (s.entering params as) t).bind fun callee t => .done (callee.returning s) t)
        ((again' g.body (μ.entering r.globals g.params as) t).bind fun callee t =>
          .done (callee.returning r.globals μ) t) := by
  obtain ⟨g, hg, hcomes⟩ := hp.function f params body hf
  obtain ⟨ctx, scopes', env, inner, houter, hgrounded, hscopes, hnames, hnodup, hdepth, hbody⟩ :=
    hcomes.resolved
  have hlength' : as.length = g.params.length := by
    have := congrArg List.length hnames
    simp only [List.length_map] at this
    omega
  have hentering :=
    Agrees.entering hp.toGround h.root hgrounded houter hnames hnodup hdepth hlength'
  rw [← hscopes] at hentering
  have hinner : inner.scopes.Grounded ground := by
    rw [(Resolved.Context.resolves_of_stmts body hbody).scopes, hscopes, ← Scopes.extend_append]
    exact Scopes.grounded_enter _ _ _
  exact ⟨g, hg, hlength', (hagain t hbody hinner hentering).bind fun callee μ' t hcallee =>
    .done t (Agrees.returning hp.toGround h hcallee.root)⟩

mutual

/-- A statement is executed in the same way before and after resolving. -/
theorem refines_stmt (hp : p.Grounded r ground) (hagain : Lockstep ground again again')
    {ctx : Resolved.Context} :
    ∀ (st : Stmt) {env env' : Resolved.Env} {st' : Resolved.Stmt} {μ : Memory V} {s : Store V}
      (t : List (Event V)), ctx.stmt st env = .ok (st', env') → env'.scopes.Grounded ground →
      Agrees ground μ env.scopes s →
      Outcome.Refines (fun s' μ' => Agrees ground μ' env'.scopes s')
        (st.exec w p again s t) (st'.exec w r again' μ t)
  | .nameSlot .., _, _, _, _, _, _, h, _, _ | .const .., _, _, _, _, _, _, h, _, _
  | .function .., _, _, _, _, _, _, h, _, _ => by cases h
  | .define pos x e, env, env', st', μ, s, t, h, hgrounded, hagrees => by
    obtain ⟨e', v, he', hv, rfl⟩ := Resolved.Context.stmt_define_eq_ok h
    obtain ⟨rfl, hnew, rfl⟩ := Resolved.Context.newVariable_eq_ok hv
    rw [Stmt.exec, Resolved.Stmt.exec]
    refine .ofOption fun a ha => ?_
    rw [hp.eval_eq_some hagrees he' ha, Outcome.ofOption_some]
    exact .done t (hagrees.define hp.toGround rfl hnew hgrounded)
  | .assign x e, env, env', st', μ, s, t, h, hgrounded, hagrees => by
    obtain ⟨e', v, he', hv, rfl, rfl⟩ := Resolved.Context.stmt_assign_eq_ok h
    rw [Stmt.exec, Resolved.Stmt.exec]
    refine .ofOption fun a ha => .ofOption fun s' hs' => ?_
    obtain ⟨hvalue, hagrees'⟩ := hagrees.assign hp.toGround hv hs'
    obtain ⟨b, hb⟩ := Option.ne_none_iff_exists'.1 hvalue
    rw [hp.eval_eq_some hagrees he' ha, Outcome.ofOption_some, hb, Outcome.ofOption_some]
    exact .done t hagrees'
  | .block pos body, env, env', st', μ, s, t, h, hgrounded, hagrees => by
    obtain ⟨body', inner, hbody, rfl, rfl⟩ := Resolved.Context.stmt_block_eq_ok h
    have hscopes := (Resolved.Context.resolves_of_stmts body hbody).scopes
    rw [Stmt.exec, Resolved.Stmt.exec]
    exact (refines_stmts hp hagain body t hbody (hscopes ▸ Scopes.grounded_enter _ _ _)
      (hagrees.enter _)).leave hscopes
  | .call f args, env, env', st', μ, s, t, h, hgrounded, hagrees => by
    obtain ⟨head, args', hhead, -, hargs, rfl, rfl⟩ := Resolved.Context.stmt_call_eq_ok h
    have hname : head.name = f.text := by
      rcases hagrees.blocks.cases_of_lookup? hhead with hmem | ⟨v, heq, -⟩
      · exact hp.name _ hmem
      · cases heq
    rw [Stmt.exec, Resolved.Stmt.exec, hname]
    refine .ofOption fun ⟨params, body⟩ hf => .ofOption fun as has => ?_
    split
    · rename_i hlength
      obtain ⟨g, hg, hlength', hcall⟩ := hp.refines_call hagain hagrees hf hlength t
      rw [hg, Outcome.ofOption_some, hp.evalAll_eq_some hagrees hargs has, Outcome.ofOption_some,
        if_pos hlength']
      exact hcall
    · exact .undefined _
  | .loop pos bodyPos body, env, env', st', μ, s, t, h, hgrounded, hagrees => by
    have hloop := Resolved.Context.stmts_singleton h
    obtain ⟨body', inner, hbody, rfl, rfl⟩ := Resolved.Context.stmt_loop_eq_ok h
    have hscopes := (Resolved.Context.resolves_of_stmts body hbody).scopes
    rw [Stmt.exec, Resolved.Stmt.exec]
    refine (refines_stmts hp hagain body t hbody (hscopes ▸ Scopes.grounded_enter _ _ _)
      (hagrees.enter _)).bind fun s' μ' t' hagrees' => ?_
    rw [hscopes] at hagrees'
    exact hagain t' hloop hgrounded hagrees'.leave
  | .ifThen pos c thenPos body, env, env', st', μ, s, t, h, hgrounded, hagrees => by
    obtain ⟨c', body', inner, hc', hbody, rfl, rfl⟩ := Resolved.Context.stmt_ifThen_eq_ok h
    have hintroduces := Resolved.Context.resolves_of_stmts body hbody
    rw [Stmt.exec, Resolved.Stmt.exec]
    refine .ofOption fun a ha => ?_
    rw [hp.eval_eq_some hagrees hc' ha, Outcome.ofOption_some]
    split
    · refine .done t ?_
      rw [hintroduces.leave_eq]
      exact hagrees
    · exact (refines_stmts hp hagain body t hbody
        (hintroduces.scopes ▸ Scopes.grounded_enter _ _ _) (hagrees.enter _)).leave
          hintroduces.scopes
  | .ifElse pos c thenPos thenBody elsePos elseBody, env, env', st', μ, s, t, h, hgrounded,
      hagrees => by
    obtain ⟨c', thenBody', inner, elseBody', inner', hc', hthen, helse, rfl, rfl⟩ :=
      Resolved.Context.stmt_ifElse_eq_ok h
    have hthenScopes := Resolved.Context.resolves_of_stmts thenBody hthen
    have helseScopes := Resolved.Context.resolves_of_stmts elseBody helse
    have hleave := hthenScopes.leave_eq
    rw [Stmt.exec, Resolved.Stmt.exec]
    refine .ofOption fun a ha => ?_
    rw [hp.eval_eq_some hagrees hc' ha, Outcome.ofOption_some]
    split
    · rw [← hleave] at hagrees
      exact (refines_stmts hp hagain elseBody t helse
        (helseScopes.scopes ▸ Scopes.grounded_enter _ _ _) (hagrees.enter _)).leave
          helseScopes.scopes
    · have hthenRefines := (refines_stmts hp hagain thenBody t hthen
        (hthenScopes.scopes ▸ Scopes.grounded_enter _ _ _) (hagrees.enter _)).leave
          hthenScopes.scopes
      have hscopes : inner'.scopes.leave = inner.scopes.leave := by
        rw [helseScopes.scopes, Scopes.leave_extend_enter]
      rw [hscopes]
      exact hthenRefines
  | .read pos device property x, env, env', st', μ, s, t, h, hgrounded, hagrees => by
    obtain ⟨device', v, hdevice, hv, rfl, rfl⟩ := Resolved.Context.stmt_read_eq_ok h
    rw [Stmt.exec, Resolved.Stmt.exec]
    refine .ofOption fun slot hslot => .ofOption fun s' hs' => ?_
    obtain ⟨hvalue, hagrees'⟩ := hagrees.assign hp.toGround hv hs'
    obtain ⟨b, hb⟩ := Option.ne_none_iff_exists'.1 hvalue
    rw [hp.slot_eq hagrees hdevice hslot, hb, Outcome.ofOption_some]
    exact .done _ hagrees'
  | .write pos e device property, env, env', st', μ, s, t, h, hgrounded, hagrees => by
    obtain ⟨e', device', he', hdevice, rfl, rfl⟩ := Resolved.Context.stmt_write_eq_ok h
    rw [Stmt.exec, Resolved.Stmt.exec]
    refine .ofOption fun a ha => .ofOption fun slot hslot => ?_
    rw [hp.eval_eq_some hagrees he' ha, Outcome.ofOption_some, hp.slot_eq hagrees hdevice hslot]
    exact .done _ hagrees
  | .yield pos, env, env', st', μ, s, t, h, hgrounded, hagrees => by
    cases h
    exact .done _ hagrees

/-- Statements are executed in the same way before and after resolving. -/
theorem refines_stmts (hp : p.Grounded r ground) (hagain : Lockstep ground again again')
    {ctx : Resolved.Context} :
    ∀ (sts : List Stmt) {env env' : Resolved.Env} {sts' : List Resolved.Stmt} {μ : Memory V}
      {s : Store V} (t : List (Event V)), ctx.stmts sts env = .ok (sts', env') →
      env'.scopes.Grounded ground → Agrees ground μ env.scopes s →
      Outcome.Refines (fun s' μ' => Agrees ground μ' env'.scopes s')
        (Stmt.execAll w p again sts s t) (Resolved.Stmt.execAll w r again' sts' μ t)
  | [], env, env', sts', μ, s, t, h, hgrounded, hagrees => by
    cases h
    exact .done t hagrees
  | st :: sts, env, env', sts', μ, s, t, h, hgrounded, hagrees => by
    obtain ⟨st₁, env₁, sts₁, h₁, h₂, rfl⟩ := Resolved.Context.stmts_cons_eq_ok h
    have hgrounded₁ : env₁.scopes.Grounded ground := by
      rw [(Resolved.Context.resolves_of_stmts sts h₂).scopes] at hgrounded
      exact hgrounded.of_extend
    rw [Stmt.execAll, Resolved.Stmt.execAll]
    exact (refines_stmt hp hagain st t h₁ hgrounded₁ hagrees).bind fun s' μ' t' hagrees' =>
      refines_stmts hp hagain sts t' h₂ hgrounded hagrees'

end

/-- With the same bound, statements are executed in the same way. -/
theorem lockstep (hp : p.Grounded r ground) (n : Nat) :
    Lockstep ground (p.execWithin w n) (r.execWithin w n) := by
  induction n with
  | zero => exact fun t _ _ _ => .cut t
  | succ n ih => exact fun t h hgrounded hagrees => hp.refines_stmts ih _ t h hgrounded hagrees

/-- The top level is executed in the same way; definitions of names do nothing. -/
theorem refines_items (hp : p.Grounded r ground) (hagain : Lockstep ground again again')
    {ctx : Resolved.Context} {sts : List Stmt} {env env' : Resolved.Env}
    {is : List Resolved.Item} (t : List (Event V)) (h : ctx.items sts env = .ok (is, env'))
    (hgrounded : env'.scopes.Grounded ground) (hagrees : Agrees ground μ env.scopes s) :
    Outcome.Refines (fun s' μ' => Agrees ground μ' env'.scopes s') (Stmt.execAll w p again sts s t)
      (Resolved.Stmt.execAll w r again' (is.filterMap Resolved.Item.stmt?) μ t) := by
  induction sts generalizing env is μ s t with
  | nil =>
    cases h
    exact .done t hagrees
  | cons st sts ih =>
    obtain ⟨i, env₁, is₁, h₁, h₂, rfl⟩ := Resolved.Context.items_cons_eq_ok h
    rcases Resolved.Context.item_eq_ok h₁ with ⟨pos, slotPos, slot, x, rfl, rfl, rfl⟩ | ⟨pos, x,
      valuePos, value, rfl, rfl, rfl⟩ | ⟨pos, x, params, bodyPos, body, f, rfl, hf, rfl⟩ | ⟨st', -,
      hst, rfl⟩
    · have hrest := ih t h₂ hagrees
      exact hrest
    · have hrest := ih t h₂ hagrees
      exact hrest
    · rw [← Resolved.Context.scopes_of_functionItem hf] at hagrees
      have hrest := ih t h₂ hagrees
      exact hrest
    · have hgrounded₁ : env₁.scopes.Grounded ground := by
        rw [(Resolved.Context.introduces_of_items h₂).scopes] at hgrounded
        exact hgrounded.of_extend
      exact (hp.refines_stmt hagain st t hst hgrounded₁ hagrees).bind fun s' μ' t' hagrees' =>
        ih t' h₂ hagrees'

end Program.Grounded

/-! ## The top level -/

/-- A function of the program was resolved in the middle of the top level. -/
theorem Resolved.Context.function_of_items {ctx : Resolved.Context} {sts : List Chipwright.Stmt}
    {is : List Resolved.Item} {params : List Name} {body : List Chipwright.Stmt}
    (h : ctx.items sts env = .ok (is, env')) (houter : env.scopes.outer = [])
    (hgrounded : env'.scopes.Grounded ground)
    (hf : sts.findSome? (·.function? x) = some (params, body)) :
    ∃ f, (is.filterMap Resolved.Item.func?).find? (·.name = x) = some f ∧
      f.ComesFrom ground params body := by
  induction sts generalizing env is with
  | nil => cases hf
  | cons st sts ih =>
    obtain ⟨i, env₁, is₁, h₁, h₂, rfl⟩ := items_cons_eq_ok h
    rcases item_eq_ok h₁ with ⟨pos, slotPos, slot, y, rfl, rfl, rfl⟩ |
      ⟨pos, y, valuePos, value, rfl, rfl, rfl⟩ |
      ⟨pos, y, ps, bodyPos, body', f, rfl, hfunction, rfl⟩ | ⟨st', hnone, hst, rfl⟩
    · have hrest := ih h₂ houter hf
      exact hrest
    · have hrest := ih h₂ houter hf
      exact hrest
    · have hname : f.name = y.text := by
        obtain ⟨vs, env₂, body₁, inner, -, -, rfl, -⟩ := functionItem_eq_ok hfunction
        rfl
      rw [List.findSome?_cons, Stmt.function?] at hf
      have hfilter : (Item.func f :: is₁).filterMap Item.func? =
          f :: is₁.filterMap Item.func? := rfl
      rw [hfilter, List.find?_cons, hname]
      by_cases hx : y.text = x
      · rw [if_pos hx] at hf
        cases hf
        have hgrounded₀ : env.scopes.Grounded ground := by
          rw [(introduces_of_items h).scopes] at hgrounded
          exact hgrounded.of_extend
        exact ⟨f, by simp [hx], ctx, pos, _, env, env₁, hfunction, houter, hgrounded₀⟩
      · rw [if_neg hx] at hf
        rw [← scopes_of_functionItem hfunction] at houter
        simpa [hx] using ih h₂ houter hf
    · have hstmt : st.function? x = none := by
        cases st with
        | function => cases hnone
        | _ => rfl
      rw [List.findSome?_cons, hstmt] at hf
      have houter₁ : env₁.scopes.outer = [] := by
        rw [(resolves_of_stmt st hst).scopes]
        exact houter
      have hrest := ih h₂ houter₁ hf
      exact hrest

/-- The scope of the top level, as it is in the end, has what the program defines there. -/
theorem Program.grounded_of_resolve {file : String} {strict : Bool} {limits : Limits} {p : Program}
    {r : Resolved.Program} (h : p.resolve file strict limits = .ok r) :
    ∃ (ctx : Resolved.Context) (env env' : Resolved.Env),
      ctx.items p.statements env = .ok (r.items, env') ∧ env.scopes.outer = [] ∧
      p.Grounded r env'.scopes.inner.entries := by
  obtain ⟨scopes, env', hglobals, hitems⟩ := resolve_eq_ok h
  obtain ⟨houter, -, hentries, hnames⟩ := Resolved.Context.globals_eq_ok hglobals List.nodup_nil
  have hintroduces := Resolved.Context.introduces_of_items hitems
  have hdepth : scopes.depth = 0 := by
    rw [Scopes.depth, houter]
    rfl
  have hground : env'.scopes.inner.entries =
      (p.statements.filterMap Resolved.globalBinding?).map (fun b => (b.name, b)) ++
        r.globals.map fun v => (v.name, .var v) := by
    rw [hintroduces.scopes, Scopes.extend, hentries]
    rfl
  have hdefined : ∀ st ∈ p.statements, ∀ b, Resolved.globalBinding? st = some b →
      (b.name, b) ∈ env'.scopes.inner.entries := by
    intro st hst b hb
    rw [hground]
    exact List.mem_append_left _ (List.mem_map.2 ⟨b, List.mem_filterMap.2 ⟨st, hst, hb⟩, rfl⟩)
  refine ⟨_, ⟨scopes, 0⟩, env', hitems, houter, ⟨hintroduces.names hnames, ?_, ?_, ?_⟩, ?_, ?_, ?_⟩
  · intro e he
    rw [hground] at he
    rcases List.mem_append.1 he with he | he
    · obtain ⟨b, -, rfl⟩ := List.mem_map.1 he
      rfl
    · obtain ⟨v, -, rfl⟩ := List.mem_map.1 he
      rfl
  · intro x v hv
    rw [hground] at hv
    rcases List.mem_append.1 hv with hv | hv
    · obtain ⟨b, hb, heq⟩ := List.mem_map.1 hv
      cases heq
      obtain ⟨st, -, hst⟩ := List.mem_filterMap.1 hb
      cases st <;> cases hst
    · obtain ⟨v', hv', heq⟩ := List.mem_map.1 hv
      cases heq
      exact hv'
  · intro v hv
    rw [hintroduces.level v hv]
    exact hdepth
  · intro x c hc
    obtain ⟨st, hst, hc⟩ := List.exists_of_findSome?_eq_some hc
    cases st with
    | const pos y valuePos value =>
      obtain ⟨hname, hvalue⟩ := Option.ite_none_right_eq_some.1 hc
      exact ⟨_, hname ▸ hdefined _ hst _ rfl, Option.some.inj hvalue⟩
    | _ => cases hc
  · intro x slot hslot
    obtain ⟨st, hst, hslot⟩ := List.exists_of_findSome?_eq_some hslot
    cases st with
    | nameSlot pos slotPos slot' y =>
      obtain ⟨hname, hvalue⟩ := Option.ite_none_right_eq_some.1 hslot
      exact ⟨_, hname ▸ hdefined _ hst _ rfl, Option.some.inj hvalue⟩
    | _ => cases hslot
  · intro x params body hf
    refine Resolved.Context.function_of_items hitems houter ?_ hf
    exact fun _ e he => he

/-- A program and its resolved form run in the same way, unless the run has no meaning. -/
theorem Program.run_eq_of_resolve {file : String} {strict : Bool} {limits : Limits} {p : Program}
    {r : Resolved.Program} (h : p.resolve file strict limits = .ok r) (w : World V) (bound : Nat) :
    p.run w bound = .undefined ∨ p.run w bound = r.run w bound := by
  obtain ⟨ctx, env, env', hitems, houter, hp⟩ := grounded_of_resolve h
  cases bound with
  | zero => exact Or.inr rfl
  | succ n =>
    have hgrounded : env'.scopes.Grounded env'.scopes.inner.entries := fun _ e he => he
    have hstart : Agrees env'.scopes.inner.entries (fun _ => none : Memory V) env.scopes
        ⟨[], []⟩ := by
      have hentries : env.scopes.Grounded env'.scopes.inner.entries := by
        rw [(Resolved.Context.introduces_of_items hitems).scopes] at hgrounded
        exact (Resolved.Context.introduces_of_items hitems).scopes ▸ hgrounded.of_extend
      obtain ⟨⟨scope, outer⟩, next⟩ := env
      cases houter
      refine ⟨.root (hentries rfl), fun x => ?_⟩
      cases env'.scopes.inner.entries.lookup x with
      | none => rfl
      | some b => cases b <;> rfl
    exact (hp.refines_items (hp.lockstep n) [] hitems hgrounded hstart).observed

end Chipwright
