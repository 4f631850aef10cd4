import Chipwright.Proofs.Resolved.Steps
import Chipwright.Proofs.Resolved.Variables

/-!
# Variables after resolving

Every variable of a resolved program is defined once, belongs to the function that defines it,
and is used only where it is visible. Functions see the variables that the top-level code
defines outside all blocks; these are the ones that count as global.
-/
namespace Chipwright

variable {file : String}

/-- Something can be found in scopes, under some name. -/
def Scopes.Sees (s : Scopes Binding) (b : Binding) : Prop :=
  ∃ scope ∈ s.all, ∃ x, (x, b) ∈ scope.entries

/-- All that can be found in scopes are these variables, and functions that are known with the
number of their arguments. -/
structure Scopes.Shows (s : Scopes Binding) (vars : List Variable)
    (known : FunctionHead × Nat → Prop) : Prop where
  var : ∀ v, s.Sees (.var v) → v ∈ vars
  func : ∀ f, s.Sees (.func f) → known (f, f.arity)

namespace Scopes

variable {s : Scopes Binding} {b : Binding} {vs vars : List Variable}
  {known : FunctionHead × Nat → Prop}

theorem sees_of_lookup? {x : String} (h : s.lookup? x = some b) : s.Sees b := by
  obtain ⟨scope, hscope, hfind⟩ := List.exists_of_findSome?_eq_some h
  exact ⟨scope, hscope, x, mem_of_lookup hfind⟩

theorem sees_extend (h : (s.extend vs).Sees b) : (∃ v ∈ vs, b = .var v) ∨ s.Sees b := by
  obtain ⟨scope, hscope, x, hx⟩ := h
  rcases List.mem_cons.1 hscope with rfl | hscope
  · rcases List.mem_append.1 hx with hx | hx
    · exact Or.inr ⟨s.inner, List.mem_cons_self .., x, hx⟩
    · obtain ⟨v, hv, heq⟩ := List.mem_map.1 hx
      cases heq
      exact Or.inl ⟨v, hv, rfl⟩
  · exact Or.inr ⟨scope, List.mem_cons_of_mem _ hscope, x, hx⟩

theorem sees_enter {kind : ScopeKind} (h : (s.enter kind).Sees b) : s.Sees b := by
  obtain ⟨scope, hscope, x, hx⟩ := h
  rcases List.mem_cons.1 hscope with rfl | hscope
  · cases hx
  · exact ⟨scope, hscope, x, hx⟩

theorem Shows.enter {kind : ScopeKind} (h : s.Shows vars known) :
    (s.enter kind).Shows vars known where
  var v hv := h.var v (sees_enter hv)
  func f hf := h.func f (sees_enter hf)

theorem Shows.extend (h : s.Shows vars known) (vs : List Variable) :
    (s.extend vs).Shows (vs ++ vars) known where
  var v hv := by
    rcases sees_extend hv with ⟨v', hv', heq⟩ | hsees
    · cases heq
      exact List.mem_append_left _ hv'
    · exact List.mem_append_right _ (h.var v hsees)
  func f hf := by
    rcases sees_extend hf with ⟨v, -, heq⟩ | hsees
    · cases heq
    · exact h.func f hsees

end Scopes

namespace Resolved

/-- Variables that got different numbers, from a first one on and below a limit. -/
structure Fresh (first limit : Nat) (vs : List Variable) : Prop where
  le : first ≤ limit
  nodup : (vs.map Variable.id).Nodup
  range : ∀ v ∈ vs, first ≤ v.id ∧ v.id < limit

namespace Fresh

variable {a b c : Nat} {vs vs' : List Variable}

theorem nil (h : a ≤ b) : Fresh a b [] := ⟨h, List.nodup_nil, by simp⟩

theorem append (h : Fresh a b vs) (h' : Fresh b c vs') : Fresh a c (vs ++ vs') := by
  refine ⟨Nat.le_trans h.le h'.le, ?_, fun v hv => ?_⟩
  · rw [List.map_append]
    refine List.nodup_append'.2 ⟨h.nodup, h'.nodup, fun n hn hn' => ?_⟩
    obtain ⟨v, hv, rfl⟩ := List.mem_map.1 hn
    obtain ⟨v', hv', heq⟩ := List.mem_map.1 hn'
    have := (h.range v hv).2
    have := (h'.range v' hv').1
    omega
  · rcases List.mem_append.1 hv with hv | hv
    · exact ⟨(h.range v hv).1, Nat.lt_of_lt_of_le (h.range v hv).2 h'.le⟩
    · exact ⟨Nat.le_trans h.le (h'.range v hv).1, (h'.range v hv).2⟩

end Fresh

/-- What resolving statements does to the surroundings: `defines` are the variables that count
after them, and `binds` all variables that were defined. -/
structure Introduces (ctx : Context) (env : Env) (defines binds : List Variable) (env' : Env) :
    Prop where
  scopes : env'.scopes = env.scopes.extend defines
  /-- The innermost scope still has each name once. -/
  names : env.scopes.inner.names.Nodup → env'.scopes.inner.names.Nodup
  fresh : Fresh env.next env'.next binds
  owner : ∀ v ∈ binds, v.function = ctx.function
  level : ∀ v ∈ defines, v.depth = env.scopes.depth
  deeper : ∀ v ∈ binds, v ∈ defines ∨ env.scopes.depth < v.depth

/-- Where some variables and functions are visible, resolved statements use no others. -/
structure Resolves (ctx : Context) (env : Env) (defines binds : List Variable)
    (inScope : (outer own : List Variable) → Prop) (calls : List (FunctionHead × Nat))
    (env' : Env) : Prop extends Introduces ctx env defines binds env' where
  visible : ∀ {own outer known}, env.scopes.Shows (own ++ outer) known →
    inScope outer own ∧ ∀ call ∈ calls, known call

variable {ctx : Context} {env env' : Env}

namespace Introduces

variable {defines defines' binds binds' : List Variable} {env₁ : Env}

theorem refl (ctx : Context) (env : Env) : Introduces ctx env [] [] env where
  scopes := (Scopes.extend_nil _).symm
  names := id
  fresh := .nil (Nat.le_refl _)
  owner := by simp
  level := by simp
  deeper := by simp

theorem depth_eq (h : Introduces ctx env defines binds env') :
    env'.scopes.depth = env.scopes.depth := by
  rw [h.scopes, Scopes.extend_depth]

theorem trans (h : Introduces ctx env defines binds env₁)
    (h' : Introduces ctx env₁ defines' binds' env') :
    Introduces ctx env (defines ++ defines') (binds ++ binds') env' where
  scopes := by rw [h'.scopes, h.scopes, Scopes.extend_append]
  names hnodup := h'.names (h.names hnodup)
  fresh := h.fresh.append h'.fresh
  owner v hv := (List.mem_append.1 hv).elim (h.owner v) (h'.owner v)
  level v hv := by
    rcases List.mem_append.1 hv with hv | hv
    · exact h.level v hv
    · rw [← h.depth_eq]
      exact h'.level v hv
  deeper v hv := by
    rcases List.mem_append.1 hv with hv | hv
    · exact (h.deeper v hv).imp_left (List.mem_append_left _)
    · rw [← h.depth_eq]
      exact (h'.deeper v hv).imp_left (List.mem_append_right _)

/-- What is defined in an inner scope is gone after it. -/
theorem inner {kind : ScopeKind}
    (h : Introduces ctx { env with scopes := env.scopes.enter kind } defines binds env₁) :
    Introduces ctx env [] binds { env₁ with scopes := env₁.scopes.leave } where
  scopes := by rw [h.scopes, Scopes.leave_extend_enter, Scopes.extend_nil]
  names hnodup := by rwa [h.scopes, Scopes.leave_extend_enter]
  fresh := h.fresh
  owner := h.owner
  level := by simp
  deeper v hv := by
    right
    rcases h.deeper v hv with hv | hv
    · rw [h.level v hv, Scopes.enter_depth]
      exact Nat.lt_succ_self _
    · exact Nat.lt_of_succ_lt hv

theorem leave_eq {kind : ScopeKind}
    (h : Introduces ctx { env with scopes := env.scopes.enter kind } defines binds env₁) :
    env₁.scopes.leave = env.scopes := by
  rw [h.scopes, Scopes.leave_extend_enter]

theorem nodup (h : Introduces ctx env defines binds env') : binds.Nodup :=
  List.Nodup.of_map _ h.fresh.nodup

end Introduces

namespace Context

variable {pos : Position} {head : FunctionHead} {params : List Name}
  {body sts : List Chipwright.Stmt} {is : List Item}

theorem introduces_of_newVariable {x : Name} {v : Variable}
    (h : ctx.newVariable x env = .ok (v, env')) : Introduces ctx env [v] [v] env' := by
  obtain ⟨rfl, hnew, rfl⟩ := newVariable_eq_ok h
  exact ⟨rfl, fun hnodup => Scope.nodup_append hnodup hnew, ⟨Nat.le_succ _, by simp, by simp⟩,
    by simp, by simp, by simp⟩

theorem introduces_of_newVariables {xs : List Name} {vs : List Variable}
    (h : ctx.newVariables xs env = .ok (vs, env')) : Introduces ctx env vs vs env' := by
  induction xs generalizing env vs with
  | nil =>
    cases h
    exact .refl _ _
  | cons x xs ih =>
    obtain ⟨v, env₁, vs', h₁, h₂, rfl⟩ := newVariables_cons_eq_ok h
    exact (introduces_of_newVariable h₁).trans (ih h₂)

theorem sees_of_expr {scopes : Scopes Binding} {e : Chipwright.Expr} {e' : Expr}
    (h : ctx.expr scopes e = .ok e') : ∀ v ∈ e'.vars, scopes.Sees (.var v) := by
  induction e generalizing e' with
  | literal pos c =>
    cases h
    simp [Expr.vars]
  | name x =>
    rcases value_eq_ok h with ⟨v, hv, rfl⟩ | ⟨c, -, rfl⟩
    · intro v' hv'
      obtain rfl := List.mem_singleton.1 hv'
      exact Scopes.sees_of_lookup? hv
    · simp [Expr.vars]
  | not pos e ih =>
    obtain ⟨e₁, he₁, rfl⟩ := expr_not_eq_ok h
    intro v hv
    exact ih he₁ v hv
  | binary op left right ihl ihr =>
    obtain ⟨e₁, e₂, he₁, he₂, rfl⟩ := expr_binary_eq_ok h
    intro v hv
    exact (List.mem_append.1 hv).elim (ihl he₁ v) (ihr he₂ v)

theorem sees_of_exprs {scopes : Scopes Binding} {es : List Chipwright.Expr} {es' : List Expr}
    (h : ctx.exprs scopes es = .ok es') : ∀ e ∈ es', ∀ v ∈ e.vars, scopes.Sees (.var v) := by
  induction es generalizing es' with
  | nil =>
    cases h
    simp
  | cons e es ih =>
    obtain ⟨e₁, es₁, he₁, hes₁, rfl⟩ := exprs_cons_eq_ok h
    intro e' he'
    rcases List.mem_cons.1 he' with rfl | he'
    · exact sees_of_expr he₁
    · exact ih hes₁ e' he'

mutual

theorem resolves_of_stmt :
    ∀ (st : Chipwright.Stmt) {env env' : Env} {st' : Stmt}, ctx.stmt st env = .ok (st', env') →
      Resolves ctx env st'.defines st'.binds (fun outer own => st'.Scoped outer own)
        st'.invocations env'
  | .nameSlot .., _, _, _, h | .const .., _, _, _, h | .function .., _, _, _, h => by cases h
  | .define pos x e, env, env', st', h => by
    obtain ⟨e', v, he', hv, rfl⟩ := stmt_define_eq_ok h
    exact ⟨introduces_of_newVariable hv, fun hs =>
      ⟨fun v hv => hs.var v (sees_of_expr he' v hv), List.forall_mem_nil _⟩⟩
  | .assign x e, env, env', st', h => by
    obtain ⟨e', v, he', hv, rfl, rfl⟩ := stmt_assign_eq_ok h
    exact ⟨.refl _ _, fun hs => ⟨⟨fun v hv => hs.var v (sees_of_expr he' v hv),
      hs.var v (Scopes.sees_of_lookup? hv)⟩, List.forall_mem_nil _⟩⟩
  | .block pos body, env, env', st', h => by
    obtain ⟨body', inner, hbody, rfl, rfl⟩ := stmt_block_eq_ok h
    have hbody := resolves_of_stmts body hbody
    exact ⟨hbody.inner, fun hs => hbody.visible hs.enter⟩
  | .call x args, env, env', st', h => by
    obtain ⟨f, args', hf, harity, hargs, rfl, rfl⟩ := stmt_call_eq_ok h
    refine ⟨.refl _ _, fun hs => ⟨fun e he v hv => hs.var v (sees_of_exprs hargs e he v hv),
      List.forall_mem_singleton.2 ?_⟩⟩
    rw [length_of_exprs hargs, harity]
    exact hs.func f (Scopes.sees_of_lookup? hf)
  | .loop pos bodyPos body, env, env', st', h => by
    obtain ⟨body', inner, hbody, rfl, rfl⟩ := stmt_loop_eq_ok h
    have hbody := resolves_of_stmts body hbody
    exact ⟨hbody.inner, fun hs => hbody.visible hs.enter⟩
  | .ifThen pos e thenPos body, env, env', st', h => by
    obtain ⟨e', body', inner, he', hbody, rfl, rfl⟩ := stmt_ifThen_eq_ok h
    have hbody := resolves_of_stmts body hbody
    refine ⟨hbody.inner, fun hs => ?_⟩
    obtain ⟨hscoped, hcalls⟩ := hbody.visible hs.enter
    exact ⟨⟨fun v hv => hs.var v (sees_of_expr he' v hv), hscoped⟩, hcalls⟩
  | .ifElse pos e thenPos thenBody elsePos elseBody, env, env', st', h => by
    obtain ⟨e', thenBody', inner, elseBody', inner', he', hthen, helse, rfl, rfl⟩ :=
      stmt_ifElse_eq_ok h
    have hthen := resolves_of_stmts thenBody hthen
    have helse := resolves_of_stmts elseBody helse
    refine ⟨hthen.inner.trans helse.inner, fun hs => ?_⟩
    obtain ⟨hscoped, hcalls⟩ := hthen.visible hs.enter
    rw [← hthen.leave_eq] at hs
    obtain ⟨hscoped', hcalls'⟩ := helse.visible hs.enter
    rw [hthen.leave_eq] at hs
    exact ⟨⟨fun v hv => hs.var v (sees_of_expr he' v hv), hscoped, hscoped'⟩,
      List.forall_mem_append.2 ⟨hcalls, hcalls'⟩⟩
  | .read pos device property x, env, env', st', h => by
    obtain ⟨device', v, -, hv, rfl, rfl⟩ := stmt_read_eq_ok h
    exact ⟨.refl _ _, fun hs => ⟨hs.var v (Scopes.sees_of_lookup? hv), List.forall_mem_nil _⟩⟩
  | .write pos e device property, env, env', st', h => by
    obtain ⟨e', device', he', -, rfl, rfl⟩ := stmt_write_eq_ok h
    exact ⟨.refl _ _, fun hs =>
      ⟨fun v hv => hs.var v (sees_of_expr he' v hv), List.forall_mem_nil _⟩⟩
  | .yield pos, env, env', st', h => by
    cases h
    exact ⟨.refl _ _, fun _ => ⟨trivial, List.forall_mem_nil _⟩⟩

theorem resolves_of_stmts :
    ∀ (sts : List Chipwright.Stmt) {env env' : Env} {sts' : List Stmt},
      ctx.stmts sts env = .ok (sts', env') →
      Resolves ctx env (sts'.flatMap Stmt.defines) (Stmt.bindsAll sts')
        (fun outer own => Stmt.AllScoped outer own sts') (Stmt.invocationsAll sts') env'
  | [], env, env', sts', h => by
    cases h
    exact ⟨.refl _ _, fun _ => ⟨trivial, List.forall_mem_nil _⟩⟩
  | st :: sts, env, env', sts', h => by
    obtain ⟨st₁, env₁, sts₁, h₁, h₂, rfl⟩ := stmts_cons_eq_ok h
    have hst := resolves_of_stmt st h₁
    have hsts := resolves_of_stmts sts h₂
    refine ⟨hst.trans hsts.toIntroduces, fun hs => ?_⟩
    obtain ⟨hscoped, hcalls⟩ := hst.visible hs
    have hs₁ := hs.extend st₁.defines
    rw [← hst.scopes, ← List.append_assoc] at hs₁
    obtain ⟨hscoped', hcalls'⟩ := hsts.visible hs₁
    exact ⟨⟨hscoped, hscoped'⟩, List.forall_mem_append.2 ⟨hcalls, hcalls'⟩⟩

end

/-- A function introduces nothing where it stands. -/
theorem introduces_of_functionItem {f : Function}
    (h : ctx.functionItem pos head params body env = .ok (f, env')) :
    Introduces ctx env [] [] env' := by
  obtain ⟨vs, env₁, body', inner, hvs, hbody, -, rfl⟩ := functionItem_eq_ok h
  have hbody := (resolves_of_stmts body hbody).toIntroduces
  have hinner := ((introduces_of_newVariables hvs).trans hbody).inner
  exact ⟨hinner.scopes, hinner.names, .nil hinner.fresh.le, by simp, by simp, by simp⟩

theorem scopes_of_functionItem {f : Function}
    (h : ctx.functionItem pos head params body env = .ok (f, env')) : env'.scopes = env.scopes :=
  (introduces_of_functionItem h).scopes.trans (Scopes.extend_nil _)

theorem introduces_of_items (h : ctx.items sts env = .ok (is, env')) :
    Introduces ctx env ((is.filterMap Item.stmt?).flatMap Stmt.defines)
      (Stmt.bindsAll (is.filterMap Item.stmt?)) env' := by
  induction sts generalizing env is with
  | nil =>
    cases h
    exact .refl _ _
  | cons st sts ih =>
    obtain ⟨i, env₁, is₁, h₁, h₂, rfl⟩ := items_cons_eq_ok h
    rcases item_eq_ok h₁ with ⟨pos, slotPos, slot, x, -, rfl, rfl⟩ |
      ⟨pos, x, valuePos, value, -, rfl, rfl⟩ | ⟨pos, x, params, bodyPos, body, f, -, hf, rfl⟩ |
      ⟨st', -, hst, rfl⟩
    · have hrest := ih h₂
      exact hrest
    · have hrest := ih h₂
      exact hrest
    · have hrest := (introduces_of_functionItem hf).trans (ih h₂)
      exact hrest
    · exact (resolves_of_stmt st hst).trans (ih h₂)

/-! ## The top level -/

/-- At the root, exactly what a statement defines is global. -/
theorem isGlobal_iff_of_introduces (hctx : ctx.function = none) (hdepth : env.scopes.depth = 0)
    {st : Stmt} (h : Introduces ctx env st.defines st.binds env') {v : Variable}
    (hv : v ∈ st.binds) : v.isGlobal = true ↔ v ∈ st.defines := by
  have howner : v.function = none := (h.owner v hv).trans hctx
  constructor
  · intro hglobal
    rcases h.deeper v hv with hmem | hdeep
    · exact hmem
    · simp only [Variable.isGlobal, Bool.and_eq_true, decide_eq_true_eq] at hglobal
      omega
  · intro hmem
    simp [Variable.isGlobal, howner, h.level v hmem, hdepth]

theorem wellScoped_of_functionItem {f : Function} {outer : List Variable}
    {known : FunctionHead × Nat → Prop}
    (h : ctx.functionItem pos head params body env = .ok (f, env'))
    (hs : env.scopes.Shows outer known) :
    f.WellScoped outer ∧ ∀ call ∈ Stmt.invocationsAll f.body, known call := by
  obtain ⟨vs, env₁, body', inner, hvs, hbody, rfl, -⟩ := functionItem_eq_ok h
  have hparams := introduces_of_newVariables hvs
  have hbody := resolves_of_stmts body hbody
  have hall := hparams.trans hbody.toIntroduces
  have hs₁ := (@Scopes.Shows.enter _ _ _ .function hs).extend vs
  rw [← hparams.scopes] at hs₁
  obtain ⟨hscoped, hcalls⟩ := hbody.visible hs₁
  exact ⟨⟨hall.nodup, hall.owner, hscoped⟩, hcalls⟩

theorem wellScoped_of_items (hctx : ctx.function = none) {own : List Variable}
    {known : FunctionHead × Nat → Prop} (h : ctx.items sts env = .ok (is, env'))
    (hdepth : env.scopes.depth = 0) (hs : env.scopes.Shows own known) :
    (∀ st ∈ is.filterMap Item.stmt?, ∀ v ∈ st.binds, v.isGlobal = true ↔ v ∈ st.defines) ∧
      Stmt.AllScoped [] own (is.filterMap Item.stmt?) ∧
      (∀ f ∈ is.filterMap Item.func?,
        f.WellScoped (own ++ (is.filterMap Item.stmt?).flatMap Stmt.defines)) ∧
      ∀ i ∈ is, ∀ call ∈ i.invocations, known call := by
  induction sts generalizing env own is with
  | nil =>
    cases h
    exact ⟨by simp, trivial, by simp, by simp⟩
  | cons st sts ih =>
    obtain ⟨i, env₁, is₁, h₁, h₂, rfl⟩ := items_cons_eq_ok h
    rcases item_eq_ok h₁ with ⟨pos, slotPos, slot, x, -, rfl, rfl⟩ |
      ⟨pos, x, valuePos, value, -, rfl, rfl⟩ | ⟨pos, x, params, bodyPos, body, f, -, hf, rfl⟩ |
      ⟨st', -, hst, rfl⟩
    · obtain ⟨hglobal, hvisible, hfunctions, hcalls⟩ := ih h₂ hdepth hs
      exact ⟨hglobal, hvisible, hfunctions, List.forall_mem_cons.2 ⟨List.forall_mem_nil _, hcalls⟩⟩
    · obtain ⟨hglobal, hvisible, hfunctions, hcalls⟩ := ih h₂ hdepth hs
      exact ⟨hglobal, hvisible, hfunctions, List.forall_mem_cons.2 ⟨List.forall_mem_nil _, hcalls⟩⟩
    · obtain ⟨hscoped, hcalls⟩ := wellScoped_of_functionItem hf hs
      rw [← scopes_of_functionItem hf] at hdepth hs
      obtain ⟨hglobal, hvisible, hfunctions, hcalls'⟩ := ih h₂ hdepth hs
      exact ⟨hglobal, hvisible, List.forall_mem_cons.2
        ⟨hscoped.mono fun v hv => List.mem_append_left _ hv, hfunctions⟩,
        List.forall_mem_cons.2 ⟨hcalls, hcalls'⟩⟩
    · have hresolves := resolves_of_stmt st hst
      have hs₁ := hs.extend st'.defines
      rw [← hresolves.scopes] at hs₁
      obtain ⟨hglobal, hvisible, hfunctions, hcalls'⟩ :=
        ih h₂ (hresolves.depth_eq.trans hdepth) hs₁
      rw [← List.append_nil own] at hs
      obtain ⟨hscoped, hcalls⟩ := hresolves.visible hs
      refine ⟨List.forall_mem_cons.2 ⟨fun v hv => ?_, hglobal⟩, ⟨hscoped, hvisible⟩, fun f hf => ?_,
        List.forall_mem_cons.2 ⟨hcalls, hcalls'⟩⟩
      · exact isGlobal_iff_of_introduces hctx hdepth hresolves.toIntroduces hv
      · refine (hfunctions f hf).mono fun v hv => ?_
        rcases List.mem_append.1 hv with hv | hv
        · rcases List.mem_append.1 hv with hv | hv
          · exact List.mem_append_right _ (List.mem_append_left _ hv)
          · exact List.mem_append_left _ hv
        · exact List.mem_append_right _ (List.mem_append_right _ hv)

/-- The functions of a program are those that the root scope knows, in the same order. -/
theorem heads_of_items (h : ctx.items sts env = .ok (is, env')) :
    ((is.filterMap Item.func?).map fun f => Binding.func f.head).Sublist
      (sts.filterMap globalBinding?) := by
  induction sts generalizing env is with
  | nil =>
    cases h
    exact List.Sublist.slnil
  | cons st sts ih =>
    obtain ⟨i, env₁, is₁, h₁, h₂, rfl⟩ := items_cons_eq_ok h
    rcases item_eq_ok h₁ with ⟨pos, slotPos, slot, x, rfl, rfl, rfl⟩ |
      ⟨pos, x, valuePos, value, rfl, rfl, rfl⟩ | ⟨pos, x, params, bodyPos, body, f, rfl, hf, rfl⟩ |
      ⟨st', hnone, -, rfl⟩
    · exact (ih h₂).cons _
    · exact (ih h₂).cons _
    · obtain ⟨-, -, -, -, -, -, rfl, -⟩ := functionItem_eq_ok hf
      exact (ih h₂).cons_cons _
    · rw [List.filterMap_cons_none hnone]
      have hrest := ih h₂
      exact hrest

theorem length_of_newVariables {xs : List Name} {vs : List Variable}
    (h : ctx.newVariables xs env = .ok (vs, env')) : vs.length = xs.length := by
  induction xs generalizing env vs with
  | nil =>
    cases h
    rfl
  | cons x xs ih =>
    obtain ⟨v, env₁, vs', -, h₂, rfl⟩ := newVariables_cons_eq_ok h
    rw [List.length_cons, List.length_cons, ih h₂]

/-- Every function that the root scope knows is a function of the program, with the parameters
that it is known for. -/
theorem exists_of_heads (h : ctx.items sts env = .ok (is, env'))
    (hhead : Binding.func head ∈ sts.filterMap globalBinding?) :
    ∃ f ∈ is.filterMap Item.func?, f.head = head ∧ f.params.length = head.arity := by
  induction sts generalizing env is with
  | nil => cases hhead
  | cons st sts ih =>
    obtain ⟨i, env₁, is₁, h₁, h₂, rfl⟩ := items_cons_eq_ok h
    rcases item_eq_ok h₁ with ⟨pos, slotPos, slot, x, rfl, rfl, rfl⟩ |
      ⟨pos, x, valuePos, value, rfl, rfl, rfl⟩ | ⟨pos, x, params, bodyPos, body, f, rfl, hf, rfl⟩ |
      ⟨st', hnone, -, rfl⟩
    · rcases List.mem_cons.1 hhead with heq | hhead
      · cases heq
      · have hrest := ih h₂ hhead
        exact hrest
    · rcases List.mem_cons.1 hhead with heq | hhead
      · cases heq
      · have hrest := ih h₂ hhead
        exact hrest
    · obtain ⟨vs, env₂, body', inner, hvs, -, rfl, -⟩ := functionItem_eq_ok hf
      rcases List.mem_cons.1 hhead with heq | hhead
      · cases heq
        exact ⟨_, List.mem_cons_self .., rfl, length_of_newVariables hvs⟩
      · obtain ⟨f, hf, heq⟩ := ih h₂ hhead
        exact ⟨f, List.mem_cons_of_mem _ hf, heq⟩
    · rw [List.filterMap_cons_none hnone] at hhead
      have hrest := ih h₂ hhead
      exact hrest

end Context

end Resolved

/-- At the start, nothing is visible but what the top level defines for the whole program. -/
theorem Resolved.Context.shows_of_globals {sts : List Chipwright.Stmt} {scopes : Scopes Binding}
    (h : Resolved.globals file sts .root = .ok scopes) :
    scopes.depth = 0 ∧ scopes.Shows [] fun call =>
      Binding.func call.1 ∈ sts.filterMap Resolved.globalBinding? ∧ call.2 = call.1.arity := by
  obtain ⟨houter, -, hentries, -⟩ := globals_eq_ok h List.nodup_nil
  have hsees : ∀ b, scopes.Sees b → b ∈ sts.filterMap Resolved.globalBinding? := by
    rintro b ⟨scope, hscope, x, hx⟩
    rw [Scopes.all, houter] at hscope
    obtain rfl := List.mem_singleton.1 hscope
    rw [hentries] at hx
    obtain ⟨b', hb', heq⟩ := List.mem_map.1 hx
    cases heq
    exact hb'
  refine ⟨by rw [Scopes.depth, houter]; rfl, fun v hv => ?_, fun f hf => ⟨hsees _ hf, rfl⟩⟩
  obtain ⟨st, -, hst⟩ := List.mem_filterMap.1 (hsees _ hv)
  cases st <;> cases hst

/-- Calls fit in a program that can be resolved. -/
theorem Program.callsFit_of_resolve {strict : Bool} {limits : Limits} {p : Program}
    {r : Resolved.Program} (h : p.resolve file strict limits = .ok r) : r.CallsFit := by
  obtain ⟨scopes, env', hglobals, hitems⟩ := resolve_eq_ok h
  obtain ⟨hdepth, hs⟩ := Resolved.Context.shows_of_globals hglobals
  obtain ⟨-, -, -, hcalls⟩ := Resolved.Context.wellScoped_of_items rfl hitems hdepth hs
  intro i hi call hcall
  obtain ⟨hglobal, harity⟩ := hcalls i hi call hcall
  obtain ⟨f, hf, hhead, hparams⟩ := Resolved.Context.exists_of_heads hitems hglobal
  exact ⟨f, hf, hhead, hparams.trans harity.symm⟩

/-- A program that can be resolved is well scoped. -/
theorem Program.wellScoped_of_resolve {strict : Bool} {limits : Limits} {p : Program}
    {r : Resolved.Program} (h : p.resolve file strict limits = .ok r) : r.WellScoped := by
  obtain ⟨scopes, env', hglobals, hitems⟩ := resolve_eq_ok h
  obtain ⟨-, -, hentries, hnames⟩ := Resolved.Context.globals_eq_ok hglobals List.nodup_nil
  obtain ⟨hdepth, hs⟩ := Resolved.Context.shows_of_globals hglobals
  have hintroduces := Resolved.Context.introduces_of_items hitems
  obtain ⟨hglobal, hvisible, hfunctions, -⟩ :=
    Resolved.Context.wellScoped_of_items rfl hitems hdepth hs
  refine ⟨?_, hintroduces.nodup, hintroduces.owner, hglobal, hvisible, hfunctions, ?_⟩
  · have hsub := (Resolved.Context.heads_of_items hitems).map Binding.name
    rw [Scope.names, hentries] at hnames
    simp only [List.map_map] at hsub
    refine List.Nodup.sublist hsub ?_
    simpa [Scopes.root, Function.comp_def] using hnames
  · intro caller name hname
    obtain ⟨site, hsite, rfl⟩ := List.mem_map.1 (List.mem_eraseDups.1 hname)
    obtain ⟨i, hi, hsite⟩ := List.mem_flatMap.1 (List.mem_filter.1 hsite).1
    have hcallee := List.mem_map_of_mem (f := Resolved.CallSite.callee) hsite
    rw [i.callee_invocations] at hcallee
    obtain ⟨call, hcall, hname⟩ := List.mem_map.1 hcallee
    obtain ⟨f, hf, hhead, -⟩ := callsFit_of_resolve h i hi call hcall
    exact ⟨f, hf, by rw [← hname, ← hhead]; rfl⟩

end Chipwright
