import Chipwright.Proofs.Lexical.Resolution

/-!
# Constants and slots in place of their names

A name for a constant or for a slot stands for something that is known from the text. So it can be
replaced where it is used, and its definition is not needed any more. What a name means at a place
is read off the text; a variable that hides a constant is not replaced.

The program that is left resolves to the resolved program in which the same is replaced.
-/
namespace Chipwright

/-! ## Texts -/

/-- The expression with the values of constants in place of their names. -/
def Expr.inlined (σ : Place) : Expr → Expr
  | literal pos value => literal pos value
  | name x =>
    match σ.lookup? x.text with
    | some (.const c) => literal x.pos c.value
    | _ => name x
  | not pos operand => not pos (operand.inlined σ)
  | binary op left right => binary op (left.inlined σ) (right.inlined σ)

/-- The device by its slot. -/
def Device.inlined (σ : Place) : Device → Device
  | direct pos slot => direct pos slot
  | named x =>
    match σ.lookup? x.text with
    | some (.device d) => direct x.pos d.slot
    | _ => named x

namespace Stmt

mutual

def inlined (σ : Place) : Stmt → Stmt
  | define pos x value => define pos x (value.inlined σ)
  | assign x value => assign x (value.inlined σ)
  | block pos body => block pos (inlinedAll σ.enter body)
  | function pos x params bodyPos body =>
    function pos x params bodyPos (inlinedAll ((σ.enterFunction x.text).defineAll params) body)
  | call x args => call x (args.map (Expr.inlined σ))
  | loop pos bodyPos body => loop pos bodyPos (inlinedAll σ.enter body)
  | ifThen pos condition thenPos thenBody =>
    ifThen pos (condition.inlined σ) thenPos (inlinedAll σ.enter thenBody)
  | ifElse pos condition thenPos thenBody elsePos elseBody =>
    ifElse pos (condition.inlined σ) thenPos (inlinedAll σ.enter thenBody) elsePos
      (inlinedAll (σ.skip (varCountAll thenBody)).enter elseBody)
  | read pos device property x => read pos (device.inlined σ) property x
  | write pos value device property => write pos (value.inlined σ) (device.inlined σ) property
  | st => st

/-- Statements of a block that starts at a place. -/
def inlinedAll (σ : Place) : List Stmt → List Stmt
  | [] => []
  | st :: sts => st.inlined σ :: inlinedAll (σ.after st) sts

end

/-- A statement that only names a constant or a slot. -/
def isNaming : Stmt → Bool
  | nameSlot _ _ _ _ => true
  | const _ _ _ _ => true
  | _ => false

end Stmt

/-- The program with constants and slots in place of their names, which are not defined any
more. -/
def Program.inlined (p : Program) : Program :=
  ⟨(Stmt.inlinedAll p.start p.statements).filter (!·.isNaming)⟩

/-! ## Resolved programs -/

namespace Resolved

def Expr.inlined : Expr → Expr
  | const pos c => literal pos c.value
  | not pos operand => not pos operand.inlined
  | binary op left right => binary op left.inlined right.inlined
  | e => e

def Device.inlined (d : Device) : Device := .direct d.pos d.slot

mutual

def Stmt.inlined : Stmt → Stmt
  | .define pos v value => .define pos v value.inlined
  | .assign pos v value => .assign pos v value.inlined
  | .block body => .block (Stmt.inlinedAll body)
  | .call pos f args => .call pos f (args.map Expr.inlined)
  | .loop pos body => .loop pos (Stmt.inlinedAll body)
  | .ifThen pos condition thenBody => .ifThen pos condition.inlined (Stmt.inlinedAll thenBody)
  | .ifElse pos condition thenBody elseBody =>
    .ifElse pos condition.inlined (Stmt.inlinedAll thenBody) (Stmt.inlinedAll elseBody)
  | .read pos device property targetPos v => .read pos device.inlined property targetPos v
  | .write pos value device property => .write pos value.inlined device.inlined property
  | .yield pos => .yield pos

def Stmt.inlinedAll : List Stmt → List Stmt
  | [] => []
  | st :: sts => st.inlined :: Stmt.inlinedAll sts

end

def Function.inlined (f : Function) : Function := { f with body := Stmt.inlinedAll f.body }

/-- What is left at the top level. -/
def Item.inlined? : Item → Option Item
  | nameSlot _ _ _ => none
  | const _ => none
  | func f => some (func f.inlined)
  | stmt st => some (stmt st.inlined)

def Program.inlined (p : Program) : Program := ⟨p.items.filterMap Item.inlined?⟩

end Resolved

/-! ## Scopes -/

/-- A name that is replaced where it is used. -/
def Binding.isInlined : Binding → Bool
  | const _ => true
  | device _ => true
  | _ => false

/-- The scope without the names that are replaced. -/
def Scope.bare (s : Scope Binding) : Scope Binding :=
  { s with entries := s.entries.filter fun e => !e.2.isInlined }

def Scopes.bare (s : Scopes Binding) : Scopes Binding := ⟨s.inner.bare, s.outer.map Scope.bare⟩

def Resolved.Env.bare (env : Resolved.Env) : Resolved.Env := ⟨env.scopes.bare, env.next⟩

theorem Scope.find?_bare {s : Scope Binding} {x : String} :
    (s.find? x = none → s.bare.find? x = none) ∧
      ∀ b, b.isInlined = false → s.find? x = some b → s.bare.find? x = some b := by
  obtain ⟨kind, entries⟩ := s
  simp only [find?, bare]
  induction entries with
  | nil => simp
  | cons e entries ih =>
    obtain ⟨y, b'⟩ := e
    rw [lookup_cons_ite]
    by_cases hy : x = y
    · rw [if_pos hy]
      refine ⟨by simp, fun b hb heq => ?_⟩
      cases heq
      rw [List.filter_cons_of_pos (by simpa using hb), lookup_cons_ite, if_pos hy]
    · rw [if_neg hy]
      cases hkept : b'.isInlined with
      | true => rwa [List.filter_cons_of_neg (by simpa using hkept)]
      | false =>
        rw [List.filter_cons_of_pos (by simpa using hkept), lookup_cons_ite, if_neg hy]
        exact ih

namespace Scopes

variable {s : Scopes Binding}

/-- A name that is not replaced means the same as before. -/
theorem lookup?_bare {x : String} {b : Binding} (hb : b.isInlined = false)
    (h : s.lookup? x = some b) : s.bare.lookup? x = some b := by
  have hall : s.bare.all = s.all.map Scope.bare := rfl
  rw [lookup?, hall]
  rw [lookup?] at h
  generalize s.all = scopes at h ⊢
  induction scopes with
  | nil => exact h
  | cons scope scopes ih =>
    rw [List.map_cons, List.findSome?_cons]
    rw [List.findSome?_cons] at h
    cases hfind : scope.find? x with
    | none =>
      rw [hfind] at h
      rw [Scope.find?_bare.1 hfind]
      exact ih h
    | some b' =>
      rw [hfind] at h
      cases h
      rw [Scope.find?_bare.2 b hb hfind]

theorem bare_leave : s.leave.bare = s.bare.leave := by
  obtain ⟨inner, outer⟩ := s
  cases outer <;> rfl

end Scopes

namespace Stmt

theorem isNaming_eq (st : Stmt) : st.isNaming = st.global?.any Binding.isInlined := by
  cases st <;> rfl

@[simp] theorem global?_inlined (σ : Place) (st : Stmt) : (st.inlined σ).global? = st.global? := by
  cases st <;> simp only [inlined, global?]

@[simp] theorem isNaming_inlined (σ : Place) (st : Stmt) :
    (st.inlined σ).isNaming = st.isNaming := by
  rw [isNaming_eq, global?_inlined, ← isNaming_eq]

end Stmt

/-! ## Resolving -/

/-- Where a step succeeds, another one does too, with what `f` makes of the result. -/
def Follows {α β : Type} (f : α → β) (x : Except Failure α) (y : Except Failure β) : Prop :=
  ∀ a, x = .ok a → y = .ok (f a)

namespace Follows

variable {α β γ δ : Type} {f : α → β} {g : γ → δ} {x : Except Failure α} {y : Except Failure β}

theorem ok (a : α) : Follows f (.ok a) (.ok (f a)) := by
  rintro _ ⟨⟩
  rfl

theorem andThen {next : α → Except Failure γ} {next' : β → Except Failure δ} (hx : Follows f x y)
    (hnext : ∀ a, x = .ok a → Follows g (next a) (next' (f a))) :
    Follows g (x >>= next) (y >>= next') := by
  intro c hc
  obtain ⟨a, ha, hc⟩ := bind_eq_ok.1 hc
  exact bind_eq_ok.2 ⟨f a, hx a ha, hnext a ha c hc⟩

theorem same (x : Except Failure α) : Follows id x x := fun _ h => h

theorem fail {ctx : Resolved.Context} {pos : Position} {cause : Cause} :
    Follows f (ctx.fail pos cause) y := nofun

end Follows

namespace Resolved.Context

variable {ctx : Context} {env : Env} {σ : Place} {scopes : Scopes Binding}

theorem lookup_bare {x : Name} {b : Binding} (hb : b.isInlined = false)
    (h : scopes.lookup? x.text = some b) : ctx.lookup scopes.bare x = .ok b :=
  lookup_eq_ok.2 (Scopes.lookup?_bare hb h)

section Names

variable (hσ : ∀ x, scopes.lookup? x = σ.lookup? x)
include hσ

theorem follows_expr (e : Chipwright.Expr) :
    Follows Expr.inlined (ctx.expr scopes e) (ctx.expr scopes.bare (e.inlined σ)) := by
  induction e with
  | literal pos value => exact .ok (Expr.literal pos value)
  | name x =>
    intro e' he'
    rw [Chipwright.Expr.inlined, ← hσ]
    rcases value_eq_ok he' with ⟨v, hv, rfl⟩ | ⟨c, hc, rfl⟩
    · rw [hv]
      change ctx.value scopes.bare x = _
      rw [value, lookup_bare rfl hv]
      rfl
    · rw [hc]
      rfl
  | not pos e ih => exact ih.andThen fun e' _ => .ok (Expr.not pos e')
  | binary op left right ihleft ihright =>
    exact ihleft.andThen fun l _ => ihright.andThen fun r _ => .ok (Expr.binary op l r)

theorem follows_exprs (es : List Chipwright.Expr) :
    Follows (List.map Expr.inlined) (ctx.exprs scopes es)
      (ctx.exprs scopes.bare (es.map (Chipwright.Expr.inlined σ))) := by
  induction es with
  | nil => exact .ok []
  | cons e es ih =>
    exact (follows_expr hσ e).andThen fun e' _ => ih.andThen fun es' _ => .ok (e' :: es')

theorem follows_device (d : Chipwright.Device) :
    Follows Device.inlined (ctx.device scopes d) (ctx.device scopes.bare (d.inlined σ)) := by
  intro d' hd'
  rcases device_eq_ok hd' with ⟨pos, slot, rfl, rfl⟩ | ⟨x, name, rfl, hname, rfl⟩
  · rfl
  · rw [Chipwright.Device.inlined, ← hσ, hname]
    rfl

end Names

theorem follows_target (x : Name) :
    Follows id (ctx.target scopes x) (ctx.target scopes.bare x) := by
  intro v hv
  rw [target, lookup_bare rfl (target_eq_ok hv)]
  rfl

theorem follows_callee (x : Name) :
    Follows id (ctx.callee scopes x) (ctx.callee scopes.bare x) := by
  intro f hf
  rw [callee, lookup_bare rfl (callee_eq_ok hf)]
  rfl

theorem follows_newVariable (x : Name) :
    Follows (Prod.map id Env.bare) (ctx.newVariable x env) (ctx.newVariable x env.bare) := by
  rintro ⟨v, env'⟩ h
  obtain ⟨rfl, hnone, rfl⟩ := newVariable_eq_ok h
  have hdepth : env.bare.scopes.depth = env.scopes.depth := List.length_map ..
  have hnone' : env.bare.scopes.inner.find? x.text = none := Scope.find?_bare.1 hnone
  simp only [newVariable, Scopes.define, hdepth, hnone']
  simp [Env.bare, Scopes.bare, Scope.bare, Scopes.extend, Binding.isInlined, bind, Except.bind,
    pure, Except.pure]

theorem follows_newVariables (xs : List Name) :
    Follows (Prod.map id Env.bare) (ctx.newVariables xs env) (ctx.newVariables xs env.bare) := by
  induction xs generalizing env with
  | nil => exact .ok ([], env)
  | cons x xs ih =>
    exact (follows_newVariable x).andThen fun r _ => ih.andThen fun r' _ =>
      .ok (r.1 :: r'.1, r'.2)

theorem place_enter {kind : ScopeKind} {function : Option String} (h : env.place function = σ) :
    Env.place function ⟨env.scopes.enter kind, env.next⟩ = σ.enter := by
  rw [← h]
  rfl

theorem follows_inScope {α : Type} {f : α → α} {kind : ScopeKind}
    {step step' : Env → Except Failure (α × Env)}
    (h : Follows (Prod.map f Env.bare) (step { env with scopes := env.scopes.enter kind })
      (step' { env.bare with scopes := env.bare.scopes.enter kind })) :
    Follows (Prod.map f Env.bare) (inScope kind env step) (inScope kind env.bare step') := by
  refine h.andThen fun r _ => ?_
  have hbare : Env.bare ⟨r.2.scopes.leave, r.2.next⟩ = ⟨r.2.bare.scopes.leave, r.2.next⟩ := by
    rw [Env.bare, Scopes.bare_leave]
    rfl
  rintro _ ⟨⟩
  change _ = Except.ok (f r.1, Env.bare ⟨r.2.scopes.leave, r.2.next⟩)
  rw [hbare]
  rfl

mutual

theorem follows_stmt : ∀ (st : Chipwright.Stmt) {env : Env} {σ : Place},
    env.place ctx.function = σ → σ.Valid → st.global? = none ∨ σ.isRoot = false →
    Follows (Prod.map Stmt.inlined Env.bare) (ctx.stmt st env) (ctx.stmt (st.inlined σ) env.bare)
  | .nameSlot .., _, _, _, _, _ | .const .., _, _, _, _, _ | .function .., _, _, _, _, _ => .fail
  | .define pos x value, env, σ, hplace, _, _ => by
    have hσ := Env.lookup?_of_place hplace
    simp only [Chipwright.Stmt.inlined, stmt]
    exact (follows_expr hσ value).andThen fun value' _ => (follows_newVariable x).andThen
      fun r _ => .ok (Stmt.define pos r.1 value', r.2)
  | .assign x value, env, σ, hplace, _, _ => by
    have hσ := Env.lookup?_of_place hplace
    simp only [Chipwright.Stmt.inlined, stmt]
    exact (follows_expr hσ value).andThen fun value' _ => (follows_target x).andThen
      fun v _ => .ok (Stmt.assign x.pos v value', env)
  | .block pos body, env, σ, hplace, hvalid, _ => by
    simp only [Chipwright.Stmt.inlined, stmt]
    exact (follows_inScope (follows_stmts body (place_enter hplace) hvalid.enter rfl)).andThen
      fun r _ => .ok (Stmt.block r.1, r.2)
  | .call x args, env, σ, hplace, _, _ => by
    have hσ := Env.lookup?_of_place hplace
    simp only [Chipwright.Stmt.inlined, stmt]
    refine (follows_callee x).andThen fun f _ => ?_
    simp only [List.length_map, id_eq]
    by_cases harity : args.length = f.arity
    · rw [if_neg (not_not.2 harity), if_neg (not_not.2 harity)]
      exact (follows_exprs hσ args).andThen fun args' _ => .ok (Stmt.call x.pos f args', env)
    · rw [if_pos harity]
      exact nofun
  | .loop pos bodyPos body, env, σ, hplace, hvalid, _ => by
    simp only [Chipwright.Stmt.inlined, stmt]
    exact (follows_inScope (follows_stmts body (place_enter hplace) hvalid.enter rfl)).andThen
      fun r _ => .ok (Stmt.loop pos r.1, r.2)
  | .ifThen pos condition thenPos thenBody, env, σ, hplace, hvalid, _ => by
    have hσ := Env.lookup?_of_place hplace
    simp only [Chipwright.Stmt.inlined, stmt]
    exact (follows_expr hσ condition).andThen fun condition' _ =>
      (follows_inScope (follows_stmts thenBody (place_enter hplace) hvalid.enter rfl)).andThen
        fun r _ => .ok (Stmt.ifThen pos condition' r.1, r.2)
  | .ifElse pos condition thenPos thenBody elsePos elseBody, env, σ, hplace, hvalid, _ => by
    have hσ := Env.lookup?_of_place hplace
    simp only [Chipwright.Stmt.inlined, stmt]
    refine (follows_expr hσ condition).andThen fun condition' _ =>
      (follows_inScope (follows_stmts thenBody (place_enter hplace) hvalid.enter rfl)).andThen
        fun r hr => ?_
    -- The variables of the first branch are counted before those of the second.
    have hthen := (decides_inScope hplace fun _ hinner =>
      decides_stmts thenBody hinner hvalid.enter rfl).of_eq_ok hr
    exact (follows_inScope (follows_stmts elseBody (place_enter hthen.2.place)
      (hvalid.skip _).enter rfl)).andThen fun r' _ =>
        .ok (Stmt.ifElse pos condition' r.1 r'.1, r'.2)
  | .read pos device property x, env, σ, hplace, _, _ => by
    have hσ := Env.lookup?_of_place hplace
    simp only [Chipwright.Stmt.inlined, stmt]
    exact (follows_device hσ device).andThen fun device' _ =>
      (Follows.same (ctx.checkProperty pos property)).andThen fun _ _ =>
        (follows_target x).andThen fun v _ => .ok (Stmt.read pos device' property x.pos v, env)
  | .write pos value device property, env, σ, hplace, _, _ => by
    have hσ := Env.lookup?_of_place hplace
    simp only [Chipwright.Stmt.inlined, stmt]
    exact (follows_expr hσ value).andThen fun value' _ =>
      (follows_device hσ device).andThen fun device' _ =>
        (Follows.same (ctx.checkProperty pos property)).andThen fun _ _ =>
          .ok (Stmt.write pos value' device' property, env)
  | .yield pos, env, _, _, _, _ => .ok (Stmt.yield pos, env)

theorem follows_stmts : ∀ (sts : List Chipwright.Stmt) {env : Env} {σ : Place},
    env.place ctx.function = σ → σ.Valid → σ.isRoot = false →
    Follows (Prod.map Stmt.inlinedAll Env.bare) (ctx.stmts sts env)
      (ctx.stmts (Chipwright.Stmt.inlinedAll σ sts) env.bare)
  | [], env, _, _, _, _ => .ok ([], env)
  | st :: sts, env, σ, hplace, hvalid, hroot => by
    simp only [Chipwright.Stmt.inlinedAll, stmts]
    refine (follows_stmt st hplace hvalid (.inr hroot)).andThen fun r hr => ?_
    obtain ⟨hrules, hreflects⟩ := (decides_stmt st hplace hvalid (.inr hroot)).of_eq_ok hr
    have hroot' : (σ.after st).isRoot = false := by
      rw [Place.isRoot, Place.outer_after]
      exact hroot
    exact (follows_stmts sts hreflects.place (hvalid.after hrules.1) hroot').andThen
      fun r' _ => .ok (r.1 :: r'.1, r'.2)

end

/-! ## The top level -/

theorem follows_functionItem (hplace : env.place ctx.function = σ) (hvalid : σ.Valid)
    {pos : Position} {head : FunctionHead} {params : List Name} {body : List Chipwright.Stmt} :
    Follows (Prod.map Function.inlined Env.bare) (ctx.functionItem pos head params body env)
      (ctx.functionItem pos head params
        (Chipwright.Stmt.inlinedAll ((σ.enterFunction head.name).defineAll params) body)
        env.bare) := by
  let ctx' : Context := { ctx with function := some head.name }
  have henter : Env.place ctx'.function ⟨env.scopes.enter .function, env.next⟩ =
      σ.enterFunction head.name := by
    rw [← hplace]
    rfl
  have hinner := hvalid.enterFunction head.name
  unfold functionItem
  refine follows_inScope ((follows_newVariables params).andThen fun r hr => ?_)
  have hvars := (decides_newVariables params (henter ▸ hinner.nodup)).of_eq_ok hr
  rw [henter] at hvars
  obtain ⟨hnodup, -, hafter⟩ := hvars
  exact (follows_stmts body hafter (hinner.defineAll hnodup) (by
    rw [Place.isRoot, Place.outer_defineAll]
    rfl)).andThen fun r' _ => .ok ((⟨pos, head, r.1, r'.1⟩ : Function), r'.2)

theorem item_of_global?_eq_none {st : Chipwright.Stmt} (h : st.global? = none) :
    ctx.item st env = (ctx.stmt st env >>= fun r => Pure.pure (Item.stmt r.1, r.2)) := by
  cases st <;> first | rfl | cases h

/-- What only names something is left out, and all else is still there. -/
theorem item_inlined {st : Chipwright.Stmt} {i : Item} {env' : Env}
    (hplace : env.place ctx.function = σ) (hvalid : σ.Valid)
    (h : ctx.item st env = .ok (i, env')) :
    st.isNaming = true ∧ i.inlined? = none ∧ env' = env ∨
      st.isNaming = false ∧ ∃ i', i.inlined? = some i' ∧
        ctx.item (st.inlined σ) env.bare = .ok (i', env'.bare) := by
  rcases item_eq_ok h with ⟨pos, slotPos, slot, x, rfl, rfl, rfl⟩ | ⟨pos, x, valuePos, value, rfl,
    rfl, rfl⟩ | ⟨pos, x, params, bodyPos, body, f, rfl, hf, rfl⟩ | ⟨st', hglobal, hst, rfl⟩
  · exact Or.inl ⟨rfl, rfl, rfl⟩
  · exact Or.inl ⟨rfl, rfl, rfl⟩
  · refine Or.inr ⟨rfl, .func f.inlined, rfl, ?_⟩
    rw [Chipwright.Stmt.inlined, item, follows_functionItem hplace hvalid _ hf]
    rfl
  · rw [globalBinding?_eq] at hglobal
    refine Or.inr ⟨by rw [Stmt.isNaming_eq, hglobal, Option.any_none], .stmt st'.inlined, rfl, ?_⟩
    rw [item_of_global?_eq_none ((Stmt.global?_inlined σ st).trans hglobal),
      follows_stmt st hplace hvalid (.inl hglobal) _ hst]
    rfl

theorem follows_items (hfunction : ctx.function = none) (sts : List Chipwright.Stmt)
    (hplace : env.place none = σ) (hvalid : σ.Valid) (hroot : σ.isRoot = true) :
    Follows (Prod.map (List.filterMap Item.inlined?) Env.bare) (ctx.items sts env)
      (ctx.items ((Chipwright.Stmt.inlinedAll σ sts).filter (!·.isNaming)) env.bare) := by
  induction sts generalizing env σ with
  | nil => exact .ok ([], env)
  | cons st sts ih =>
    rintro ⟨is, env'⟩ h
    obtain ⟨i, env₁, is₁, hi, his, rfl⟩ := items_cons_eq_ok h
    obtain ⟨hrules, hreflects⟩ :=
      (decides_item hfunction st hplace hvalid hroot).of_eq_ok hi
    have hrest := ih hreflects.place (hvalid.after hrules.1) (by
      rw [Place.isRoot, Place.outer_after]
      exact hroot) _ his
    rw [Chipwright.Stmt.inlinedAll]
    rcases item_inlined (hfunction ▸ hplace) hvalid hi with ⟨hnaming, hnone, rfl⟩ |
      ⟨hnaming, i', hsome, hi'⟩
    · rw [List.filter_cons_of_neg (by simp [hnaming]), hrest]
      simp [hnone]
    · rw [List.filter_cons_of_pos (by simp [hnaming]), items, hi']
      change (ctx.items _ env₁.bare >>= _) = _
      rw [hrest]
      simp [hsome, Pure.pure, Except.pure, bind, Except.bind]

end Resolved.Context

namespace Resolved

theorem follows_globals (file : String) (sts : List Chipwright.Stmt) (σ : Place)
    (scopes : Scopes Binding) :
    Follows Scopes.bare (globals file sts scopes)
      (globals file ((Chipwright.Stmt.inlinedAll σ sts).filter (!·.isNaming)) scopes.bare) := by
  induction sts generalizing σ scopes with
  | nil => exact .ok scopes
  | cons st sts ih =>
    have hnaming := st.isNaming_eq
    rw [globals, Chipwright.Stmt.inlinedAll, globalBinding?_eq]
    cases hst : st.global? with
    | none =>
      rw [hst, Option.any_none] at hnaming
      rw [List.filter_cons_of_pos (by simp [hnaming]), globals,
        globalBinding?_eq, Stmt.global?_inlined, hst]
      exact ih _ scopes
    | some b =>
      rw [hst, Option.any_some] at hnaming
      intro scopes' h
      obtain ⟨scopes₁, hdefine, hrest⟩ := bind_eq_ok.1 h
      obtain ⟨hnone, rfl⟩ := Context.decides_define.of_eq_ok hdefine
      have hrest := ih (σ.after st) _ _ hrest
      cases hb : b.isInlined with
      | true =>
        rw [List.filter_cons_of_neg (by simp [hnaming, hb]), ← hrest]
        simp [Scopes.bare, Scope.bare, hb]
      | false =>
        have hnone' : scopes.bare.inner.find? b.name = none := Scope.find?_bare.1 hnone
        rw [List.filter_cons_of_pos (by simp [hnaming, hb]), globals,
          globalBinding?_eq, Stmt.global?_inlined, hst]
        simp only [Scopes.define, hnone']
        rw [← hrest]
        simp [Scopes.bare, Scope.bare, hb, bind, Except.bind]

/-! ## Calls -/

mutual

@[simp] theorem Stmt.calls_inlined (caller : Option String) :
    ∀ st : Stmt, st.inlined.calls caller = st.calls caller
  | .define .. | .assign .. | .call .. | .read .. | .write .. | .yield .. => rfl
  | .block body => by simp only [Stmt.inlined, Stmt.calls, Stmt.callsAll_inlined caller body]
  | .loop pos body => by simp only [Stmt.inlined, Stmt.calls, Stmt.callsAll_inlined caller body]
  | .ifThen pos condition thenBody => by
    simp only [Stmt.inlined, Stmt.calls, Stmt.callsAll_inlined caller thenBody]
  | .ifElse pos condition thenBody elseBody => by
    simp only [Stmt.inlined, Stmt.calls, Stmt.callsAll_inlined caller thenBody,
      Stmt.callsAll_inlined caller elseBody]

@[simp] theorem Stmt.callsAll_inlined (caller : Option String) :
    ∀ sts : List Stmt, Stmt.callsAll caller (Stmt.inlinedAll sts) = Stmt.callsAll caller sts
  | [] => rfl
  | st :: sts => by
    simp only [Stmt.inlinedAll, Stmt.callsAll, Stmt.calls_inlined caller st,
      Stmt.callsAll_inlined caller sts]

end

/-! ## Names -/

/-- The names that are not replaced. -/
def Occurrence.kept (os : List Occurrence) : List Occurrence :=
  os.filter fun o => !o.binding.isInlined

namespace Occurrence

@[simp] theorem kept_append (os os' : List Occurrence) : kept (os ++ os') = kept os ++ kept os' :=
  List.filter_append ..

@[simp] theorem kept_nil : kept [] = [] := rfl

@[simp] theorem kept_var (pos : Position) (v : Variable) (os : List Occurrence) :
    kept (⟨pos, .var v⟩ :: os) = ⟨pos, .var v⟩ :: kept os := rfl

@[simp] theorem kept_func (pos : Position) (f : FunctionHead) (os : List Occurrence) :
    kept (⟨pos, .func f⟩ :: os) = ⟨pos, .func f⟩ :: kept os := rfl

@[simp] theorem kept_definitions (vs : List Variable) :
    kept (vs.map definition) = vs.map definition :=
  List.filter_eq_self.2 (by simp [definition, Binding.isInlined])

end Occurrence

open Occurrence (kept)

@[simp] theorem Expr.names_inlined (e : Expr) : e.inlined.names = kept e.names := by
  induction e with
  | literal | var | const => rfl
  | not pos e ih => exact ih
  | binary op left right ihleft ihright => simp [inlined, names, ihleft, ihright]

@[simp] theorem Expr.flatMap_names_inlined (es : List Expr) :
    (es.map inlined).flatMap names = kept (es.flatMap names) := by
  induction es with
  | nil => rfl
  | cons e es ih => simp [ih]

@[simp] theorem Device.names_inlined (d : Device) : d.inlined.names = kept d.names := by
  cases d <;> rfl

mutual

@[simp] theorem Stmt.names_inlined : ∀ st : Stmt, st.inlined.names = kept st.names
  | .define .. => by simp [Stmt.inlined, Stmt.names, Occurrence.definition]
  | .assign .. | .call .. | .read .. | .write .. => by simp [Stmt.inlined, Stmt.names]
  | .block body => by simp [Stmt.inlined, Stmt.names, Stmt.namesAll_inlined body]
  | .loop pos body => by simp [Stmt.inlined, Stmt.names, Stmt.namesAll_inlined body]
  | .ifThen pos condition thenBody => by
    simp [Stmt.inlined, Stmt.names, Stmt.namesAll_inlined thenBody]
  | .ifElse pos condition thenBody elseBody => by
    simp [Stmt.inlined, Stmt.names, Stmt.namesAll_inlined thenBody, Stmt.namesAll_inlined elseBody]
  | .yield pos => rfl

@[simp] theorem Stmt.namesAll_inlined :
    ∀ sts : List Stmt, Stmt.namesAll (Stmt.inlinedAll sts) = kept (Stmt.namesAll sts)
  | [] => rfl
  | st :: sts => by
    simp [Stmt.inlinedAll, Stmt.namesAll, Stmt.names_inlined st, Stmt.namesAll_inlined sts]

end

namespace Program

variable (p : Program)

/-- The names of constants and slots are gone, and all others are still there. -/
theorem names_inlined : p.inlined.names = kept p.names := by
  obtain ⟨items⟩ := p
  simp only [inlined, names]
  induction items with
  | nil => rfl
  | cons i items ih =>
    cases i with
    | nameSlot | const => exact ih
    | func f =>
      simp [Item.inlined?, Item.names, Function.inlined, ih]
    | stmt st => simp [Item.inlined?, Item.names, ih]

theorem functions_inlined : p.inlined.functions = p.functions.map Function.inlined := by
  simp only [functions, inlined, List.filterMap_filterMap, List.map_filterMap]
  refine congrArg (List.filterMap · p.items) (funext fun i => ?_)
  cases i <;> rfl

theorem sites_inlined : p.inlined.items.flatMap Item.calls = p.items.flatMap Item.calls := by
  obtain ⟨items⟩ := p
  simp only [inlined]
  induction items with
  | nil => rfl
  | cons i items ih =>
    cases i with
    | nameSlot | const => exact ih
    | func f => simpa [Item.inlined?, Item.calls, Function.inlined, Function.name] using ih
    | stmt st => simpa [Item.inlined?, Item.calls] using ih

/-- The same functions call each other. -/
@[simp] theorem callGraph_inlined : p.inlined.callGraph = p.callGraph := by
  rw [callGraph, callGraph, sites_inlined, functions_inlined, List.map_map]
  rfl

@[simp] theorem functionOrder_inlined : p.inlined.functionOrder = p.functionOrder := by
  rw [functionOrder, callGraph_inlined, functionOrder]

end Program

end Resolved

/-- What is left of a program resolves to what is left of the resolved program. -/
theorem Program.resolve_inlined {file : String} {strict : Bool} {limits : Limits} {p : Program}
    {r : Resolved.Program} (h : p.resolve file strict limits = .ok r) :
    p.inlined.resolve file strict limits = .ok r.inlined := by
  obtain ⟨hprogram, hcheck⟩ := resolve_eq_ok_iff.1 h
  refine resolve_eq_ok_iff.2 ⟨?_, by rw [Resolved.Program.callGraph_inlined, hcheck]⟩
  simp only [Resolved.Context.program, bind_eq_ok, pure_eq_ok] at hprogram ⊢
  obtain ⟨scopes, hglobals, ⟨items, env⟩, hitems, rfl⟩ := hprogram
  have hdistinct : ((p.statements.filterMap Stmt.global?).map (·.name)).Nodup := by
    have hnodup := (lexicallyScoped_of_resolve h).1.distinct
    exact ((Stmt.rootNames_perm p.statements).nodup_iff.1 hnodup).of_append_left
  have hplace : Resolved.Env.place none ⟨scopes, 0⟩ = p.start := by
    have hroot : (Scopes.root : Scopes Binding).inner.names.Nodup := List.nodup_nil
    obtain ⟨-, houter, hentries⟩ := (Resolved.decides_globals p.statements hroot).of_eq_ok hglobals
    simp [Resolved.Env.place, houter, hentries, start, Scopes.root]
  refine ⟨scopes.bare, Resolved.follows_globals file p.statements p.start .root _ hglobals,
    (items.filterMap Resolved.Item.inlined?, env.bare), ?_, rfl⟩
  exact Resolved.Context.follows_items rfl p.statements hplace (start_valid hdistinct) rfl _ hitems

end Chipwright
