import Chipwright.Proofs.Lexical.Names
import Chipwright.Proofs.Resolved.Recursion
import Chipwright.Proofs.Resolved.Variables

/-!
# Resolving is lexical scoping

A program is resolved exactly if it keeps the rules of scoping, and every name then means what
the text says. A statement decides its own rules and those of the statements inside it, and the
place after it is the one that the text gives, so the statements of a block are taken one after
the other.

## Main statements

* `Context.decides_stmt`: a statement, with all that stands inside it
* `Program.resolve_iff_lexicallyScoped`: whole programs
-/
namespace Chipwright

/-! ### Statements -/

/-- The call that a statement makes. -/
def Placed.calls (x : Placed) : List Resolved.CallSite :=
  match x.stmt with
  | .call callee _ => [⟨x.place.function, callee.text, callee.pos⟩]
  | _ => []

theorem Placed.wellFormed_mk {strict : Bool} {σ : Place} {st : Stmt} :
    (⟨σ, st⟩ : Placed).WellFormed strict ↔ (st.global?.isSome = true → σ.isRoot = true) ∧
      (∀ names ∈ st.scopes, names.Nodup) ∧ (∀ use ∈ st.uses, σ.Admits use) ∧
      (∀ callee args, st = .call callee args →
        ∀ f, σ.lookup? callee.text = some (.func f) → args.length = f.arity) ∧
      (strict = true → ∀ property ∈ st.properties, property ∈ knownProperties) :=
  ⟨fun h => ⟨h.root, h.distinct, h.uses, h.arity, h.properties⟩,
    fun ⟨h₁, h₂, h₃, h₄, h₅⟩ => ⟨h₁, h₂, h₃, h₄, h₅⟩⟩

theorem Placed.meanings_mk {σ : Place} {st : Stmt} : (⟨σ, st⟩ : Placed).meanings =
    (st.definitions σ).map (fun b => (b.pos, some b)) ++ st.uses.map σ.meaning := rfl

namespace Resolved

/-- What was resolved is what stands in the text from one place to another: the same names
with the same meanings, and the same calls. -/
structure Reflects (function : Option String) (xs : List Placed) (after : Place)
    (names : List Occurrence) (calls : List CallSite) (env : Env) : Prop where
  place : env.place function = after
  names : names.map Occurrence.meaning = xs.flatMap Placed.meanings
  calls : calls = xs.flatMap Placed.calls

namespace Context

variable {env : Env}

/-- The statement and what stands inside it. -/
abbrev region (σ : Place) (st : Chipwright.Stmt) : List Placed := ⟨σ, st⟩ :: st.inside σ

/-- The rules for a statement and what stands inside it. -/
def Rules (strict : Bool) (σ : Place) (st : Chipwright.Stmt) : Prop :=
  (σ.names ++ Stmt.lets [st]).Nodup ∧ ∀ x ∈ region σ st, x.WellFormed strict

/-- The rules for statements that stand one after another. -/
def AllRules (strict : Bool) (σ : Place) (sts : List Chipwright.Stmt) : Prop :=
  (σ.names ++ Stmt.lets sts).Nodup ∧ ∀ x ∈ Stmt.placed σ sts, x.WellFormed strict

theorem allRules_cons {strict : Bool} {σ : Place} {st : Chipwright.Stmt}
    {sts : List Chipwright.Stmt} :
    AllRules strict σ (st :: sts) ↔ Rules strict σ st ∧ AllRules strict (σ.after st) sts := by
  have hlets : Stmt.lets (st :: sts) = Stmt.lets [st] ++ Stmt.lets sts := by
    simp [Stmt.lets, ← List.filterMap_append]
  simp only [AllRules, Rules, hlets, Stmt.placed, region, Place.names_after, List.append_assoc,
    List.forall_mem_append]
  constructor
  · rintro ⟨hnodup, hst, hsts⟩
    exact ⟨⟨(List.append_assoc .. ▸ hnodup : ((σ.names ++ _) ++ _).Nodup).of_append_left, hst⟩,
      hnodup, hsts⟩
  · rintro ⟨⟨-, hst⟩, hnodup, hsts⟩
    exact ⟨hnodup, hst, hsts⟩

/-! Which rules each form of statement has to keep, in the order in which they are looked at. -/

section Forms

variable {strict : Bool} {σ : Place} {pos bodyPos thenPos elsePos : Position} {x : Name}
  {value condition : Chipwright.Expr} {args : List Chipwright.Expr} {device : Chipwright.Device}
  {property : String} {body thenBody elseBody : List Chipwright.Stmt}

theorem rules_iff {st : Chipwright.Stmt} (hnodup : σ.names.Nodup) : Rules strict σ st ↔
    (∀ x, st.let? = some x → x.text ∉ σ.names) ∧ (⟨σ, st⟩ : Placed).WellFormed strict ∧
      ∀ x ∈ st.inside σ, x.WellFormed strict := by
  have hnames : (σ.names ++ Stmt.lets [st]).Nodup ↔ ∀ x, st.let? = some x → x.text ∉ σ.names := by
    cases h : st.let? with
    | none => simp [Stmt.lets, h, hnodup]
    | some x => simp [Stmt.lets, h, hnodup, List.nodup_append']
  rw [Rules, hnames, List.forall_mem_cons]

attribute [local simp] Placed.wellFormed_mk Stmt.inside Stmt.global? Stmt.scopes Stmt.uses
  Stmt.properties Stmt.let?

theorem rules_define (hnodup : σ.names.Nodup) : Rules strict σ (.define pos x value) ↔
    (∀ use ∈ value.uses, σ.Admits use) ∧ x.text ∉ σ.names := by
  simp [rules_iff hnodup, and_comm]

theorem rules_assign (hnodup : σ.names.Nodup) : Rules strict σ (.assign x value) ↔
    (∀ use ∈ value.uses, σ.Admits use) ∧ σ.Admits ⟨x, .target⟩ := by
  simp [rules_iff hnodup, and_comm]

theorem rules_call (hnodup : σ.names.Nodup) : Rules strict σ (.call x args) ↔
    σ.Admits ⟨x, .callee⟩ ∧
      (∀ f, σ.lookup? x.text = some (.func f) → args.length = f.arity) ∧
        ∀ use ∈ args.flatMap Chipwright.Expr.uses, σ.Admits use := by
  simp [rules_iff hnodup, -List.mem_flatMap, and_comm, and_assoc]

theorem rules_block (hnodup : σ.names.Nodup) :
    Rules strict σ (.block pos body) ↔ AllRules strict σ.enter body := by
  simp [rules_iff hnodup, AllRules]

theorem rules_loop (hnodup : σ.names.Nodup) :
    Rules strict σ (.loop pos bodyPos body) ↔ AllRules strict σ.enter body := by
  simp [rules_iff hnodup, AllRules]

theorem rules_ifThen (hnodup : σ.names.Nodup) :
    Rules strict σ (.ifThen pos condition thenPos thenBody) ↔
      (∀ use ∈ condition.uses, σ.Admits use) ∧ AllRules strict σ.enter thenBody := by
  simp [rules_iff hnodup, AllRules, and_comm, and_left_comm, and_assoc]

theorem rules_ifElse (hnodup : σ.names.Nodup) :
    Rules strict σ (.ifElse pos condition thenPos thenBody elsePos elseBody) ↔
      (∀ use ∈ condition.uses, σ.Admits use) ∧ AllRules strict σ.enter thenBody ∧
        AllRules strict (σ.skip (Stmt.varCountAll thenBody)).enter elseBody := by
  simp [rules_iff hnodup, AllRules, List.forall_mem_append, -List.mem_append,
    and_comm, and_left_comm, and_assoc]

theorem rules_read (hnodup : σ.names.Nodup) : Rules strict σ (.read pos device property x) ↔
    (∀ use ∈ device.uses, σ.Admits use) ∧ (strict = true → property ∈ knownProperties) ∧
      σ.Admits ⟨x, .target⟩ := by
  simp [rules_iff hnodup, List.forall_mem_append, -List.mem_append, and_comm, and_left_comm,
    and_assoc]

theorem rules_write (hnodup : σ.names.Nodup) : Rules strict σ (.write pos value device property) ↔
    (∀ use ∈ value.uses, σ.Admits use) ∧ (∀ use ∈ device.uses, σ.Admits use) ∧
      (strict = true → property ∈ knownProperties) := by
  simp [rules_iff hnodup, List.forall_mem_append, -List.mem_append, and_comm, and_assoc]

theorem rules_yield (hnodup : σ.names.Nodup) : Rules strict σ (.yield pos) := by
  simp [rules_iff hnodup]

theorem not_rules_of_global {st : Chipwright.Stmt} (hst : st.global? ≠ none)
    (hroot : st.global? = none ∨ σ.isRoot = false) : ¬ Rules strict σ st := by
  intro h
  have hwf := (h.2 ⟨σ, st⟩ (List.mem_cons_self ..)).root (Option.isSome_iff_ne_none.2 hst)
  rw [hroot.resolve_left hst] at hwf
  cases hwf

end Forms

variable {ctx : Context}

/-- A block: its statements are resolved in a scope of their own. -/
theorem decides_inScope {kind : ScopeKind} {σ : Place} {body : List Chipwright.Stmt}
    (hσ : env.place ctx.function = σ) (hbody : ∀ inner : Env, inner.place ctx.function = σ.enter →
      Decides (AllRules ctx.strict σ.enter body)
        (fun r => Reflects ctx.function (Stmt.placed σ.enter body) (σ.enter.afterAll body)
          (Stmt.namesAll r.1) (Stmt.callsAll ctx.function r.1) r.2)
        (ctx.stmts body inner)) :
    Decides (AllRules ctx.strict σ.enter body)
      (fun r => Reflects ctx.function (Stmt.placed σ.enter body)
        (σ.skip (Stmt.varCountAll body)) (Stmt.namesAll r.1) (Stmt.callsAll ctx.function r.1) r.2)
      (inScope kind env (ctx.stmts body)) := by
  have henter : ({ env with scopes := env.scopes.enter kind } : Env).place ctx.function =
      σ.enter := by
    rw [← hσ]
    rfl
  have hfunction : σ.function = ctx.function := by
    rw [← hσ]
    rfl
  refine (hbody _ henter).map fun r _ hr => ?_
  exact ⟨place_leave hr.place (by simp [Place.enter]) (by simp [Place.enter]) hfunction, hr.names,
    hr.calls⟩

section Statements

attribute [local simp] Stmt.inside Stmt.names Stmt.calls Item.names Item.calls Placed.meanings_mk
  Placed.calls Stmt.definitions Stmt.uses Occurrence.meaning Binding.pos

mutual

theorem decides_stmt : ∀ (st : Chipwright.Stmt) {env : Env} {σ : Place},
    env.place ctx.function = σ → σ.Valid → st.global? = none ∨ σ.isRoot = false →
    Decides (Rules ctx.strict σ st)
      (fun r => Reflects ctx.function (region σ st) (σ.after st) r.1.names
        (r.1.calls ctx.function) r.2)
      (ctx.stmt st env)
  | .nameSlot pos slotPos slot x, env, σ, _, _, hroot =>
    .fail (not_rules_of_global (by simp [Stmt.global?]) hroot)
  | .const pos x valuePos value, env, σ, _, _, hroot =>
    .fail (not_rules_of_global (by simp [Stmt.global?]) hroot)
  | .function pos x params bodyPos body, env, σ, _, _, hroot =>
    .fail (not_rules_of_global (by simp [Stmt.global?]) hroot)
  | .define pos x value, env, σ, hplace, hvalid, _ => by
    have hσ := Env.lookup?_of_place hplace
    subst hplace
    simp only [stmt]
    refine (decides_expr hσ value).andThen (rules_define hvalid.nodup) fun value' _ hvalue =>
      (decides_newVariable x).map fun r _ hr => ?_
    refine ⟨hr.2, ?_, by simp⟩
    simp [hvalue, hr.1, Occurrence.definition]
  | .assign x value, env, σ, hplace, hvalid, _ => by
    have hσ := Env.lookup?_of_place hplace
    subst hplace
    simp only [stmt]
    refine (decides_expr hσ value).andThen (rules_assign hvalid.nodup) fun value' _ hvalue =>
      (decides_target hσ x).map fun v _ hv => ?_
    refine ⟨rfl, ?_, by simp⟩
    simp [hvalue, Place.meaning, hv]
  | .block pos body, env, σ, hplace, hvalid, _ => by
    simp only [stmt]
    refine ((decides_inScope hplace fun _ hinner =>
      decides_stmts body hinner hvalid.enter rfl).map fun r _ h => ?_).imp
      (rules_block hvalid.nodup).symm fun _ _ hQ => hQ
    refine ⟨h.place, ?_, ?_⟩
    · simpa using h.names
    · simpa using h.calls
  | .call x args, env, σ, hplace, hvalid, _ => by
    have hσ := Env.lookup?_of_place hplace
    subst hplace
    simp only [stmt]
    refine (decides_callee hσ x).andThen (rules_call hvalid.nodup) fun f _ hf => ?_
    have harity : (∀ f', (env.place ctx.function).lookup? x.text = some (.func f') →
        args.length = f'.arity) ↔ args.length = f.arity := by
      rw [hf]
      simp
    rw [harity]
    by_cases hlength : args.length = f.arity
    · rw [if_neg (by simpa using hlength)]
      refine ((decides_exprs hσ args).map fun args' _ hargs => ?_).imp (by simp [hlength])
        fun _ _ hQ => hQ
      have hname : f.name = x.text := hvalid.name_of_lookup? hf
      refine ⟨rfl, ?_, ?_⟩
      · simp [hargs, Place.meaning, hf]
      · simp [Env.place, hname]
    · rw [if_pos (by simpa using hlength)]
      exact Decides.fail fun h => hlength h.1
  | .loop pos bodyPos body, env, σ, hplace, hvalid, _ => by
    simp only [stmt]
    refine ((decides_inScope hplace fun _ hinner =>
      decides_stmts body hinner hvalid.enter rfl).map fun r _ h => ?_).imp
      (rules_loop hvalid.nodup).symm fun _ _ hQ => hQ
    refine ⟨h.place, ?_, ?_⟩
    · simpa using h.names
    · simpa using h.calls
  | .ifThen pos condition thenPos thenBody, env, σ, hplace, hvalid, _ => by
    have hσ := Env.lookup?_of_place hplace
    simp only [stmt]
    refine (decides_expr hσ condition).andThen (rules_ifThen hvalid.nodup)
      fun condition' _ hcondition => (decides_inScope hplace fun _ hinner =>
        decides_stmts thenBody hinner hvalid.enter rfl).map fun r _ h => ?_
    refine ⟨h.place, ?_, ?_⟩
    · simp [hcondition, h.names]
    · simpa using h.calls
  | .ifElse pos condition thenPos thenBody elsePos elseBody, env, σ, hplace, hvalid, _ => by
    have hσ := Env.lookup?_of_place hplace
    have hskip := hvalid.skip (Stmt.varCountAll thenBody)
    simp only [stmt]
    refine (decides_expr hσ condition).andThen (rules_ifElse hvalid.nodup)
      fun condition' _ hcondition => (decides_inScope hplace fun _ hinner =>
        decides_stmts thenBody hinner hvalid.enter rfl).andThen Iff.rfl fun r _ h =>
          (decides_inScope h.place fun _ hinner =>
            decides_stmts elseBody hinner hskip.enter rfl).map fun r' _ h' => ?_
    refine ⟨?_, ?_, ?_⟩
    · rw [h'.place]
      simp [Place.skip, Place.after, Stmt.let?, Stmt.varCount, Nat.add_assoc]
    · simp [hcondition, h.names, h'.names]
    · simp [h.calls, h'.calls]
  | .read pos device property x, env, σ, hplace, hvalid, _ => by
    have hσ := Env.lookup?_of_place hplace
    subst hplace
    simp only [stmt]
    refine (decides_device hσ device).andThen (rules_read hvalid.nodup) fun device' _ hdevice =>
      (decides_checkProperty pos property).andThen Iff.rfl fun _ _ _ =>
        (decides_target hσ x).map fun v _ hv => ?_
    refine ⟨rfl, ?_, by simp⟩
    simp [hdevice, Place.meaning, hv]
  | .write pos value device property, env, σ, hplace, hvalid, _ => by
    have hσ := Env.lookup?_of_place hplace
    subst hplace
    simp only [stmt]
    refine (decides_expr hσ value).andThen (rules_write hvalid.nodup) fun value' _ hvalue =>
      (decides_device hσ device).andThen Iff.rfl fun device' _ hdevice =>
        (decides_checkProperty pos property).map fun _ _ _ => ?_
    refine ⟨rfl, ?_, by simp⟩
    simp [hvalue, hdevice]
  | .yield pos, env, σ, hplace, hvalid, _ => by
    simp only [stmt]
    refine ⟨rules_yield hvalid.nodup, hplace, ?_, by simp⟩
    simp

theorem decides_stmts : ∀ (sts : List Chipwright.Stmt) {env : Env} {σ : Place},
    env.place ctx.function = σ → σ.Valid → σ.isRoot = false →
    Decides (AllRules ctx.strict σ sts)
      (fun r => Reflects ctx.function (Stmt.placed σ sts) (σ.afterAll sts) (Stmt.namesAll r.1)
        (Stmt.callsAll ctx.function r.1) r.2)
      (ctx.stmts sts env)
  | [], env, σ, hplace, hvalid, _ => by
    simp only [stmts]
    exact ⟨⟨by simpa [Stmt.lets] using hvalid.nodup, by simp [Stmt.placed]⟩, hplace, rfl, rfl⟩
  | st :: sts, env, σ, hplace, hvalid, hroot => by
    simp only [stmts]
    refine (decides_stmt st hplace hvalid (.inr hroot)).andThen allRules_cons fun r hrules hr => ?_
    have hroot' : (σ.after st).isRoot = false := by
      rw [Place.isRoot, Place.outer_after]
      exact hroot
    refine (decides_stmts sts hr.place (hvalid.after hrules.1) hroot').map fun r' _ hr' => ?_
    refine ⟨hr'.place, ?_, ?_⟩
    · simp only [Stmt.namesAll, List.map_append, hr.names, hr'.names, Stmt.placed,
        List.flatMap_append]
    · simp only [Stmt.callsAll, hr.calls, hr'.calls, Stmt.placed, List.flatMap_append]

end

/-! ### The top level -/

theorem rules_function {strict : Bool} {σ : Place} {pos bodyPos : Position} {x : Name}
    {params : List Name} {body : List Chipwright.Stmt} (hnodup : σ.names.Nodup)
    (hroot : σ.isRoot = true) :
    Rules strict σ (.function pos x params bodyPos body) ↔
      AllRules strict ((σ.enterFunction x.text).defineAll params) body := by
  simp [rules_iff hnodup, AllRules, Placed.wellFormed_mk, Stmt.inside, Stmt.scopes, Stmt.uses,
    Stmt.properties, Stmt.let?, hroot]

theorem decides_functionItem {σ : Place} (hplace : env.place ctx.function = σ) (hvalid : σ.Valid)
    {pos : Position} {head : FunctionHead} {params : List Name} {body : List Chipwright.Stmt} :
    Decides (AllRules ctx.strict ((σ.enterFunction head.name).defineAll params) body)
      (fun r => r.1.head = head ∧ r.1.params = (σ.enterFunction head.name).newVariables params ∧
        Reflects ctx.function
          (Stmt.placed ((σ.enterFunction head.name).defineAll params) body)
          (σ.skip (params.length + Stmt.varCountAll body)) (Stmt.namesAll r.1.body)
          (Stmt.callsAll (some head.name) r.1.body) r.2)
      (ctx.functionItem pos head params body env) := by
  let ctx' : Context := { ctx with function := some head.name }
  have henter : ({ env with scopes := env.scopes.enter .function } : Env).place ctx'.function =
      σ.enterFunction head.name := by
    rw [← hplace]
    rfl
  have hfunction : σ.function = ctx.function := by
    rw [← hplace]
    rfl
  have hvars : Decides ((σ.enterFunction head.name).names ++ params.map (·.text)).Nodup
      (fun r => r.1 = (σ.enterFunction head.name).newVariables params ∧
        r.2.place ctx'.function = (σ.enterFunction head.name).defineAll params)
      (ctx'.newVariables params { env with scopes := env.scopes.enter .function }) := by
    rw [← henter]
    exact decides_newVariables params (henter ▸ (hvalid.enterFunction head.name).nodup)
  have hrules : AllRules ctx.strict ((σ.enterFunction head.name).defineAll params) body ↔
      ((σ.enterFunction head.name).names ++ params.map (·.text)).Nodup ∧
        AllRules ctx.strict ((σ.enterFunction head.name).defineAll params) body := by
    refine ⟨fun h => ⟨?_, h⟩, fun h => h.2⟩
    rw [← Place.names_defineAll]
    exact h.1.of_append_left
  refine Decides.map (Q := fun r => r.1.head = head ∧
      r.1.params = (σ.enterFunction head.name).newVariables params ∧
        Reflects (some head.name)
          (Stmt.placed ((σ.enterFunction head.name).defineAll params) body)
          (((σ.enterFunction head.name).defineAll params).afterAll body) (Stmt.namesAll r.1.body)
          (Stmt.callsAll (some head.name) r.1.body) r.2)
    (hvars.andThen hrules fun r hnodup hr => (decides_stmts body hr.2
      ((hvalid.enterFunction head.name).defineAll hnodup) ?_).map fun r' _ hr' => ?_) ?_
  · rw [Place.isRoot, Place.outer_defineAll]
    rfl
  · exact ⟨rfl, hr.1, hr'⟩
  · rintro ⟨f, inner⟩ - ⟨hhead, hparams, h⟩
    refine ⟨hhead, hparams, place_leave h.place ?_ ?_ hfunction, h.names, h.calls⟩
    · simp [Place.enterFunction, Place.enter]
    · simp [Place.enterFunction, Place.enter, Nat.add_assoc]

/-- A statement of the top level. -/
theorem decides_item (hfunction : ctx.function = none) (st : Chipwright.Stmt) {σ : Place}
    (hplace : env.place none = σ) (hvalid : σ.Valid) (hroot : σ.isRoot = true) :
    Decides (Rules ctx.strict σ st)
      (fun r => Reflects none (region σ st) (σ.after st) r.1.names r.1.calls r.2)
      (ctx.item st env) := by
  rw [← hfunction] at hplace
  by_cases hglobal : st.global? = none
  · have hitem : ctx.item st env =
        (ctx.stmt st env >>= fun r => Pure.pure (Item.stmt r.1, r.2)) := by
      cases st <;> first | rfl | cases hglobal
    rw [hitem]
    refine (decides_stmt st hplace hvalid (.inl hglobal)).map fun r _ hr => ?_
    rw [hfunction] at hr
    exact hr
  · cases st with
    | nameSlot pos slotPos slot x =>
      refine ⟨?_, ?_⟩
      · simp [rules_iff hvalid.nodup, Placed.wellFormed_mk, Stmt.inside, Stmt.scopes, Stmt.uses,
          Stmt.properties, Stmt.let?, hroot]
      · refine ⟨hfunction ▸ hplace, ?_, by simp⟩
        simp
    | const pos x valuePos value =>
      refine ⟨?_, ?_⟩
      · simp [rules_iff hvalid.nodup, Placed.wellFormed_mk, Stmt.inside, Stmt.scopes, Stmt.uses,
          Stmt.properties, Stmt.let?, hroot]
      · refine ⟨hfunction ▸ hplace, ?_, by simp⟩
        simp
    | function pos x params bodyPos body =>
      rw [item]
      refine ((decides_functionItem hplace hvalid).map fun r _ hr => ?_).imp
        (rules_function hvalid.nodup hroot).symm fun _ _ hQ => hQ
      obtain ⟨hhead, hparams, h⟩ := hr
      rw [hfunction] at h
      refine ⟨h.place, ?_, ?_⟩
      · simp [hhead, hparams, h.names, Occurrence.definition]
      · simp [Function.name, hhead, h.calls]
    | _ => exact absurd rfl hglobal

end Statements

theorem decides_items (hfunction : ctx.function = none) (sts : List Chipwright.Stmt) {σ : Place}
    (hplace : env.place none = σ) (hvalid : σ.Valid) (hroot : σ.isRoot = true) :
    Decides (AllRules ctx.strict σ sts)
      (fun r => Reflects none (Stmt.placed σ sts) (σ.afterAll sts) (r.1.flatMap Item.names)
        (r.1.flatMap Item.calls) r.2)
      (ctx.items sts env) := by
  induction sts generalizing env σ with
  | nil =>
    exact ⟨⟨by simpa [Stmt.lets] using hvalid.nodup, by simp [Stmt.placed]⟩, hplace, rfl, rfl⟩
  | cons st sts ih =>
    refine (decides_item hfunction st hplace hvalid hroot).andThen allRules_cons
      fun r hrules hr => ?_
    have hroot' : (σ.after st).isRoot = true := by
      rw [Place.isRoot, Place.outer_after]
      exact hroot
    refine (ih hr.place (hvalid.after hrules.1) hroot').map fun r' _ hr' => ?_
    refine ⟨hr'.place, ?_, ?_⟩
    · simp only [List.flatMap_cons, List.map_append, hr.names, hr'.names, Stmt.placed,
        List.flatMap_append]
    · simp only [List.flatMap_cons, hr.calls, hr'.calls, Stmt.placed, List.flatMap_append]

end Context

theorem globalBinding?_eq (st : Chipwright.Stmt) : globalBinding? st = st.global? := by
  cases st <;> rfl

/-- The names that count in the whole program. -/
theorem decides_globals {file : String} (sts : List Chipwright.Stmt) {scopes : Scopes Binding}
    (hnodup : scopes.inner.names.Nodup) :
    Decides (scopes.inner.names ++ (sts.filterMap Stmt.global?).map (·.name)).Nodup
      (fun scopes' => scopes'.outer = scopes.outer ∧ scopes'.inner.entries =
        scopes.inner.entries ++ (sts.filterMap Stmt.global?).map fun b => (b.name, b))
      (globals file sts scopes) := by
  induction sts generalizing scopes with
  | nil => exact ⟨by simpa using hnodup, rfl, by simp⟩
  | cons st sts ih =>
    rw [globals, globalBinding?_eq]
    cases hst : st.global? with
    | none =>
      rw [List.filterMap_cons_none hst]
      exact ih hnodup
    | some b =>
      rw [List.filterMap_cons_some hst]
      have hrules : (scopes.inner.names ++ (b :: sts.filterMap Stmt.global?).map (·.name)).Nodup ↔
          scopes.inner.find? b.name = none ∧ ((scopes.inner.names ++ [b.name]) ++
            (sts.filterMap Stmt.global?).map (·.name)).Nodup := by
        rw [Scope.find?_eq_none_iff, List.append_assoc]
        refine ⟨fun h => ⟨fun hb => ?_, h⟩, fun h => h.2⟩
        exact (List.nodup_append'.1 h).2.2 hb (by simp)
      refine Context.decides_define.andThen hrules fun scopes' hnone hscopes => ?_
      have hnodup' : scopes'.inner.names.Nodup := by
        rw [hscopes]
        exact Scope.nodup_append hnodup hnone
      refine (ih hnodup').imp (by simp [hscopes, Scope.names]) fun _ _ hQ => ?_
      simpa [hscopes] using hQ

end Resolved

/-- The names of the root scope, those that count everywhere first. -/
theorem Stmt.rootNames_perm (sts : List Stmt) : (sts.filterMap Stmt.rootName?).Perm
    ((sts.filterMap Stmt.global?).map (·.name) ++ Stmt.lets sts) := by
  induction sts with
  | nil => simp [Stmt.lets]
  | cons st sts ih =>
    cases st with
    | nameSlot | const | function => exact ih.cons _
    | define pos x value => exact (ih.cons x.text).trans List.perm_middle.symm
    | _ => exact ih

namespace Program

open Resolved Relation

variable {r : Resolved.Program}

variable {file : String} {strict : Bool} {limits : Limits} {p : Program}

theorem start_valid (h : ((p.statements.filterMap Stmt.global?).map (·.name)).Nodup) :
    p.start.Valid where
  nodup := by simpa [start, Place.names, Function.comp_def] using h
  keyed := by
    intro scope hscope e he
    obtain rfl := List.mem_singleton.1 hscope
    obtain ⟨b, -, rfl⟩ := List.mem_map.1 he
    rfl

/-- Names are resolved exactly if the rules are kept that do not concern recursion. -/
theorem decides_program (file : String) (strict : Bool) (p : Program) :
    Decides ((p.statements.filterMap Stmt.rootName?).Nodup ∧ ∀ x ∈ p.placed, x.WellFormed strict)
      (fun r => r.names.map Occurrence.meaning = p.meanings ∧
        r.callGraph.sites = p.placed.flatMap Placed.calls)
      (({ file, strict } : Context).program p) := by
  have hnames : p.start.names = (p.statements.filterMap Stmt.global?).map (·.name) := by
    simp [start, Place.names, Function.comp_def]
  have hrules : ((p.statements.filterMap Stmt.rootName?).Nodup ∧
      ∀ x ∈ p.placed, x.WellFormed strict) ↔
      ((p.statements.filterMap Stmt.global?).map (·.name)).Nodup ∧
        Context.AllRules strict p.start p.statements := by
    rw [(Stmt.rootNames_perm p.statements).nodup_iff, Context.AllRules, hnames]
    exact ⟨fun h => ⟨h.1.of_append_left, h⟩, fun h => h.2⟩
  refine (decides_globals p.statements (by simp [Scopes.root, Scope.names])).andThen
    (by simpa [Scopes.root, Scope.names] using hrules) fun scopes hnodup hscopes => ?_
  have hplace : (⟨scopes, 0⟩ : Env).place none = p.start := by
    obtain ⟨houter, hentries⟩ := hscopes
    simp [Env.place, start, houter, hentries, Scopes.root]
  refine (Context.decides_items rfl p.statements hplace
    (start_valid (by simpa [Scopes.root, Scope.names] using hnodup)) rfl).map fun r _ hr => ?_
  exact ⟨hr.names, hr.calls⟩

/-- The calls in the resolved program are those in the text. -/
theorem calls_eq (h : r.callGraph.sites = p.placed.flatMap Placed.calls) :
    r.callGraph.Calls = p.Calls := by
  ext caller callee
  simp only [CallGraph.Calls, h, Calls, List.mem_flatMap]
  constructor
  · rintro ⟨site, ⟨⟨σ, st⟩, hx, hsite⟩, hcaller, hcallee⟩
    cases st with
    | call x args =>
      obtain rfl := List.mem_singleton.1 hsite
      exact ⟨σ, x, args, hx, hcaller, hcallee⟩
    | _ => cases hsite
  · rintro ⟨σ, x, args, hx, hcaller, hcallee⟩
    exact ⟨⟨σ.function, x.text, x.pos⟩, ⟨_, hx, List.mem_singleton.2 rfl⟩, hcaller, hcallee⟩

/-- Every call that is not in the top-level code is in a function of the program. -/
theorem mem_functions_of_mem_sites :
    ∀ site ∈ r.callGraph.sites, ∀ f, site.caller = some f → f ∈ r.callGraph.functions := by
  intro site hsite f hf
  obtain ⟨i, hi, hsite⟩ := List.mem_flatMap.1 hsite
  cases i with
  | func f' =>
    have hcaller := Stmt.caller_callsAll f'.body hsite
    rw [hf] at hcaller
    cases hcaller
    exact List.mem_map.2 ⟨f', List.mem_filterMap.2 ⟨.func f', hi, rfl⟩, rfl⟩
  | stmt st =>
    have hcaller := Stmt.caller_calls st hsite
    rw [hf] at hcaller
    cases hcaller
  | _ => cases hsite

theorem resolve_eq_ok_iff : p.resolve file strict limits = .ok r ↔
    ({ file, strict } : Context).program p = .ok r ∧
      r.callGraph.check file limits.chain = .ok () := by
  simp only [resolve, bind_eq_ok, pure_eq_ok]
  constructor
  · rintro ⟨r, hprogram, u, hcheck, rfl⟩
    exact ⟨hprogram, hcheck⟩
  · rintro ⟨hprogram, hcheck⟩
    exact ⟨r, hprogram, (), hcheck, rfl⟩

theorem acyclic_of_resolve (h : p.resolve file strict limits = .ok r) : r.callGraph.Acyclic :=
  CallGraph.acyclic_of_check (resolve_eq_ok_iff.1 h).2 mem_functions_of_mem_sites

/-- What is resolved keeps the rules, and its names mean what the text says. -/
theorem lexicallyScoped_of_resolve (h : p.resolve file strict limits = .ok r) :
    p.LexicallyScoped strict ∧ r.names.map Occurrence.meaning = p.meanings := by
  obtain ⟨hprogram, -⟩ := resolve_eq_ok_iff.1 h
  have hdecides := decides_program file strict p
  rw [hprogram] at hdecides
  obtain ⟨⟨hdistinct, hstatements⟩, hmeanings, hsites⟩ := hdecides
  have hacyclic := acyclic_of_resolve h
  rw [CallGraph.Acyclic, calls_eq hsites] at hacyclic
  exact ⟨⟨hstatements, hdistinct, hacyclic⟩, hmeanings⟩

/-- What keeps the rules is resolved, up to the limit on chains of calls. -/
theorem resolve_of_lexicallyScoped (h : p.LexicallyScoped strict) :
    (∃ r, p.resolve file strict limits = .ok r) ∨
      p.resolve file strict limits = .error (CallGraph.Fault.tooDeep.failure file) := by
  have hdecides := decides_program file strict p
  obtain ⟨r, hprogram⟩ := hdecides.exists_ok_iff.2 ⟨h.distinct, h.statements⟩
  rw [hprogram] at hdecides
  obtain ⟨-, -, hsites⟩ := hdecides
  have hacyclic : r.callGraph.Acyclic := by
    rw [CallGraph.Acyclic, calls_eq hsites]
    exact h.acyclic
  have hcheck : r.callGraph.check file limits.chain = .ok () ∨ _ :=
    CallGraph.check_of_acyclic hacyclic
  rcases hcheck with hcheck | hcheck
  · exact .inl ⟨r, resolve_eq_ok_iff.2 ⟨hprogram, hcheck⟩⟩
  · refine .inr ?_
    rw [resolve, hprogram]
    change (r.callGraph.check file limits.chain >>= fun _ => pure r) = _
    rw [hcheck]
    rfl

/-- As long as no chain of calls is too long to be followed, a program is resolved exactly if
it keeps the rules of scoping. Every name in a resolved program means what the text says. -/
theorem resolve_iff_lexicallyScoped (file : String) (strict : Bool) (limits : Limits)
    (p : Program) :
    (p.resolve file strict limits ≠ .error (CallGraph.Fault.tooDeep.failure file) →
      ((∃ r, p.resolve file strict limits = .ok r) ↔ p.LexicallyScoped strict)) ∧
    ∀ r, p.resolve file strict limits = .ok r → r.names.map Occurrence.meaning = p.meanings := by
  refine ⟨fun hlimit => ⟨?_, fun h => ?_⟩, fun r h => (lexicallyScoped_of_resolve h).2⟩
  · rintro ⟨r, h⟩
    exact (lexicallyScoped_of_resolve h).1
  · exact (resolve_of_lexicallyScoped h).resolve_right hlimit

/-- A function that reads a variable of the top level and then hides it.
```
def d0 as lamp;
let x = 1;
fn show(y) { if (x) { let x = y; write x into lamp.On; } }
show(x);
```
-/
def shadowing : Program where
  statements := [
    .nameSlot ⟨1, 1⟩ ⟨1, 5⟩ (.pin ⟨0, by decide⟩) ⟨"lamp", ⟨1, 11⟩⟩,
    .define ⟨2, 1⟩ ⟨"x", ⟨2, 5⟩⟩ (.literal ⟨2, 9⟩ (.int 1)),
    .function ⟨3, 1⟩ ⟨"show", ⟨3, 4⟩⟩ [⟨"y", ⟨3, 9⟩⟩] ⟨3, 12⟩
      [.ifThen ⟨3, 14⟩ (.name ⟨"x", ⟨3, 18⟩⟩) ⟨3, 21⟩
        [.define ⟨3, 23⟩ ⟨"x", ⟨3, 27⟩⟩ (.name ⟨"y", ⟨3, 31⟩⟩),
          .write ⟨3, 34⟩ (.name ⟨"x", ⟨3, 40⟩⟩) (.named ⟨"lamp", ⟨3, 47⟩⟩) "On"]],
    .call ⟨"show", ⟨4, 1⟩⟩ [.name ⟨"x", ⟨4, 6⟩⟩]]

theorem lexicallyScoped_shadowing :
    shadowing.resolve "show.ay" true ≠ .error (CallGraph.Fault.tooDeep.failure "show.ay") ∧
      shadowing.LexicallyScoped true ∧ ∃ r, shadowing.resolve "show.ay" true = .ok r ∧
        r.names.map Occurrence.meaning = shadowing.meanings := by
  have hsome : (shadowing.resolve "show.ay" true).toOption.isSome := by decide +kernel
  obtain ⟨r, hr⟩ := Option.isSome_iff_exists.1 hsome
  have hr := toOption_eq_some.1 hr
  have hlimit : shadowing.resolve "show.ay" true ≠
      .error (CallGraph.Fault.tooDeep.failure "show.ay") := by
    rw [hr]
    exact nofun
  have hresolve := resolve_iff_lexicallyScoped "show.ay" true {} shadowing
  exact ⟨hlimit, (hresolve.1 hlimit).1 ⟨r, hr⟩, r, hr, hresolve.2 r hr⟩

end Program

end Chipwright
