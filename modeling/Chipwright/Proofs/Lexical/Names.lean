import Chipwright.Proofs.Lexical.Place
import Chipwright.Proofs.Resolved.Steps
import Chipwright.Resolved.Occurrence

/-!
# Resolving the names of a statement

Each step of resolving either succeeds, with the rules of scoping kept where it is, or fails,
with one of them broken: `Decides`. The rules that a chain of steps decides are those of its
steps, so both directions go through the same argument. Here are the steps that look up one
name or define one, and expressions.
-/
namespace Chipwright

/-- A step succeeds exactly if `P` holds, and then `Q` holds of what it gives. If it does not, there
is a diagnostic. -/
def Decides {α : Type} (P : Prop) (Q : α → Prop) : Except Failure α → Prop
  | .ok a => P ∧ Q a
  | .error e => (∃ d, e = .diagnostic d) ∧ ¬ P

namespace Decides

variable {α β : Type} {P P' : Prop} {Q Q' : α → Prop} {x : Except Failure α}

/-- A chain of two steps decides both rules. -/
theorem andThen {P₁ P₂ : Prop} {R : β → Prop} {f : α → Except Failure β} (hx : Decides P₁ Q x)
    (hP : P ↔ P₁ ∧ P₂) (hf : ∀ a, P₁ → Q a → Decides P₂ R (f a)) : Decides P R (x >>= f) := by
  cases x with
  | error e => exact ⟨hx.1, fun h => hx.2 (hP.1 h).1⟩
  | ok a =>
    have hfa := hf a hx.1 hx.2
    show Decides P R (f a)
    cases hresult : f a with
    | error e =>
      rw [hresult] at hfa
      exact ⟨hfa.1, fun h => hfa.2 (hP.1 h).2⟩
    | ok b =>
      rw [hresult] at hfa
      exact ⟨hP.2 ⟨hx.1, hfa.1⟩, hfa.2⟩

theorem pure {a : α} (h : Q a) : Decides True Q (Pure.pure a : Except Failure α) :=
  ⟨trivial, h⟩

theorem map {R : β → Prop} {f : α → β} (hx : Decides P Q x) (hf : ∀ a, P → Q a → R (f a)) :
    Decides P R (x >>= fun a => Pure.pure (f a)) := by
  cases x with
  | error e => exact hx
  | ok a => exact ⟨hx.1, hf a hx.1 hx.2⟩

theorem imp (hx : Decides P Q x) (hP : P ↔ P') (hQ : ∀ a, P → Q a → Q' a) : Decides P' Q' x := by
  cases x with
  | error e => exact ⟨hx.1, fun h => hx.2 (hP.2 h)⟩
  | ok a => exact ⟨hP.1 hx.1, hQ a hx.1 hx.2⟩

theorem fail {ctx : Resolved.Context} {pos : Position} {cause : Cause} (h : ¬ P) :
    Decides P Q (ctx.fail pos cause) := ⟨⟨_, rfl⟩, h⟩

theorem of_eq_ok {a : α} (hx : Decides P Q x) (h : x = .ok a) : P ∧ Q a := by
  rw [h] at hx
  exact hx

theorem exists_ok_iff (hx : Decides P Q x) : (∃ a, x = .ok a) ↔ P := by
  cases x with
  | error e => exact iff_of_false (by simp) hx.2
  | ok a => exact iff_of_true ⟨a, rfl⟩ hx.1

theorem failsOnly (hx : Decides P Q x) : FailsOnly (∃ d, · = .diagnostic d) x := by
  rintro e rfl
  exact hx.1

end Decides

/-! ### Places -/

namespace Place

variable {xs : List Name}

variable {σ : Place} {st : Stmt}

@[simp] theorem names_define (x : Name) : (σ.define x).names = σ.names ++ [x.text] := by
  simp [define, names]

@[simp] theorem names_enter : σ.enter.names = [] := rfl

@[simp] theorem names_enterFunction (f : String) : (σ.enterFunction f).names = [] := rfl

theorem names_after : (σ.after st).names = σ.names ++ Stmt.lets [st] := by
  unfold after
  cases h : st.let? with
  | none => simp [Stmt.lets, h, skip, names]
  | some x => simp [Stmt.lets, h]

theorem varCount_of_let? {x : Name} (h : st.let? = some x) : st.varCount = 1 := by
  cases st <;> simp_all [Stmt.let?, Stmt.varCount]

@[simp] theorem outer_after : (σ.after st).outer = σ.outer := by
  unfold after
  split <;> rfl

@[simp] theorem function_after : (σ.after st).function = σ.function := by
  unfold after
  split <;> rfl

@[simp] theorem next_after : (σ.after st).next = σ.next + st.varCount := by
  unfold after
  split
  case h_1 x h => simp [define, varCount_of_let? h]
  case h_2 => rfl

@[simp] theorem outer_afterAll {sts : List Stmt} : (σ.afterAll sts).outer = σ.outer := by
  induction sts generalizing σ with
  | nil => rfl
  | cons st sts ih => simp [afterAll, ih]

@[simp] theorem next_afterAll {sts : List Stmt} :
    (σ.afterAll sts).next = σ.next + Stmt.varCountAll sts := by
  induction sts generalizing σ with
  | nil => rfl
  | cons st sts ih => simp [afterAll, ih, Stmt.varCountAll, Nat.add_assoc]

@[simp] theorem outer_defineAll : (σ.defineAll xs).outer = σ.outer := by
  induction xs generalizing σ with
  | nil => rfl
  | cons x xs ih => simp [defineAll, ih, define]

@[simp] theorem next_defineAll : (σ.defineAll xs).next = σ.next + xs.length := by
  induction xs generalizing σ with
  | nil => rfl
  | cons x xs ih => simp only [defineAll, ih, define, List.length_cons]; omega

@[simp] theorem names_defineAll : (σ.defineAll xs).names = σ.names ++ xs.map (·.text) := by
  induction xs generalizing σ with
  | nil => simp [defineAll]
  | cons x xs ih => simp [defineAll, ih]

/-- No name stands twice in the innermost scope, and definitions stand under their names. -/
structure Valid (σ : Place) : Prop where
  nodup : σ.names.Nodup
  keyed : ∀ scope ∈ σ.inner :: σ.outer, ∀ e ∈ scope, e.2.name = e.1

theorem Valid.name_of_lookup? (h : σ.Valid) {x : String} {b : Binding}
    (hb : σ.lookup? x = some b) : b.name = x := by
  obtain ⟨scope, hscope, hlookup⟩ := List.exists_of_findSome?_eq_some hb
  exact h.keyed scope hscope _ (mem_of_lookup hlookup)

theorem Valid.enter (h : σ.Valid) : σ.enter.Valid where
  nodup := by simp
  keyed := by
    intro scope hscope e he
    rcases List.mem_cons.1 hscope with rfl | hscope
    · cases he
    · exact h.keyed scope hscope e he

theorem Valid.enterFunction (h : σ.Valid) (f : String) : (σ.enterFunction f).Valid :=
  ⟨h.enter.nodup, h.enter.keyed⟩

theorem Valid.skip (h : σ.Valid) (n : Nat) : (σ.skip n).Valid := ⟨h.nodup, h.keyed⟩

theorem Valid.define (h : σ.Valid) {x : Name} (hx : x.text ∉ σ.names) : (σ.define x).Valid where
  nodup := by
    rw [names_define]
    exact List.nodup_append'.2 ⟨h.nodup, by simp, by simpa using hx⟩
  keyed := by
    intro scope hscope e he
    rcases List.mem_cons.1 hscope with rfl | hscope
    · rcases List.mem_append.1 he with he | he
      · exact h.keyed _ (List.mem_cons_self ..) e he
      · rw [List.mem_singleton.1 he]
        rfl
    · exact h.keyed scope (List.mem_cons_of_mem _ hscope) e he

theorem Valid.defineAll (h : σ.Valid) (hxs : (σ.names ++ xs.map (·.text)).Nodup) :
    (σ.defineAll xs).Valid := by
  induction xs generalizing σ with
  | nil => exact h
  | cons x xs ih =>
    have hx : x.text ∉ σ.names := fun hx => (List.nodup_append'.1 hxs).2.2 hx (by simp)
    exact ih (h.define hx) (by simpa using hxs)

theorem Valid.after (h : σ.Valid) (hst : (σ.names ++ Stmt.lets [st]).Nodup) :
    (σ.after st).Valid := by
  unfold Place.after
  cases hlet : st.let? with
  | none => exact h.skip _
  | some x =>
    refine h.define ?_
    have hlets : Stmt.lets [st] = [x.text] := by simp [Stmt.lets, hlet]
    rw [hlets] at hst
    simpa using (List.nodup_append'.1 hst).2.2

end Place

theorem Scope.find?_eq_none_iff {scope : Scope Binding} {x : String} :
    scope.find? x = none ↔ x ∉ scope.names := by
  simp only [Scope.find?, List.lookup_eq_none_iff, Scope.names, List.mem_map]
  constructor
  · rintro h ⟨e, he, rfl⟩
    simpa using h e he
  · intro h e he
    simpa using fun heq => h ⟨e, he, heq.symm⟩

namespace Place

variable {σ : Place} {x : Name} {role : Role} {b : Binding}

/-- A name has a meaning that the use admits. -/
def Admits (σ : Place) (use : Use) : Prop :=
  ∃ b, σ.lookup? use.name.text = some b ∧ use.role.admits b = true

/-- A name where it is used, with its meaning. -/
def meaning (σ : Place) (use : Use) : Position × Option Binding :=
  (use.name.pos, σ.lookup? use.name.text)

theorem admits_of_lookup? (h : σ.lookup? x.text = some b) (hb : role.admits b = true) :
    σ.Admits ⟨x, role⟩ := ⟨b, h, hb⟩

theorem not_admits_of_lookup? (h : σ.lookup? x.text = some b) (hb : role.admits b = false) :
    ¬ σ.Admits ⟨x, role⟩ := by
  rintro ⟨b', hb', hadmits⟩
  rw [h] at hb'
  cases hb'
  rw [hb] at hadmits
  cases hadmits

theorem not_admits_of_none (h : σ.lookup? x.text = none) : ¬ σ.Admits ⟨x, role⟩ := by
  rintro ⟨b, hb, -⟩
  rw [h] at hb
  cases hb

end Place

def Resolved.Occurrence.meaning (o : Resolved.Occurrence) : Position × Option Binding :=
  (o.pos, some o.binding)

namespace Resolved

/-- The place that the open scopes and the number of the next variable stand for. -/
def Env.place (function : Option String) (env : Env) : Place where
  inner := env.scopes.inner.entries
  outer := env.scopes.outer.map (·.entries)
  function := function
  next := env.next

theorem Env.lookup?_of_place {function : Option String} {env : Env} {σ : Place}
    (h : env.place function = σ) (x : String) : env.scopes.lookup? x = σ.lookup? x := by
  subst h
  have hscopes : env.scopes.all.map (·.entries) =
      env.scopes.inner.entries :: env.scopes.outer.map (·.entries) := rfl
  rw [Place.lookup?, Env.place, ← hscopes, List.findSome?_map]
  rfl

namespace Context

variable {ctx : Context} {env : Env} {σ : Place} {scopes : Scopes Binding}

/-! ### Names and expressions -/

section Names

variable (hσ : ∀ x, scopes.lookup? x = σ.lookup? x)
include hσ

/-- A name that is looked up and then has to be of some kind. -/
theorem decides_lookup {α : Type} {x : Name} {role : Role} {next : Binding → Except Failure α}
    {Q : α → Prop}
    (hadmits : ∀ b, σ.lookup? x.text = some b → role.admits b = true →
      Decides True Q (next b))
    (hrefuses : ∀ b, role.admits b = false → Decides False Q (next b)) :
    Decides (σ.Admits ⟨x, role⟩) Q (ctx.lookup scopes x >>= next) := by
  unfold lookup
  rw [hσ]
  cases h : σ.lookup? x.text with
  | none => exact ⟨⟨_, rfl⟩, Place.not_admits_of_none h⟩
  | some b =>
    cases hb : role.admits b with
    | true =>
      exact (hadmits b h hb).imp (iff_of_true trivial (Place.admits_of_lookup? h hb))
        fun _ _ hQ => hQ
    | false =>
      exact (hrefuses b hb).imp (iff_of_false not_false (Place.not_admits_of_lookup? h hb))
        fun _ _ hQ => hQ

theorem decides_value (x : Name) :
    Decides (σ.Admits ⟨x, .value⟩)
      (fun e => e.names.map Occurrence.meaning = [σ.meaning ⟨x, .value⟩])
      (ctx.value scopes x) := by
  refine decides_lookup hσ (fun b h hb => ?_) fun b hb => ?_
  · cases b with
    | var v => exact .pure (by simp [Expr.names, Occurrence.meaning, Place.meaning, h])
    | const c => exact .pure (by simp [Expr.names, Occurrence.meaning, Place.meaning, h])
    | _ => cases hb
  · cases b with
    | var | const => cases hb
    | _ => exact .fail not_false

theorem decides_target (x : Name) :
    Decides (σ.Admits ⟨x, .target⟩) (fun v => σ.lookup? x.text = some (.var v))
      (ctx.target scopes x) := by
  refine decides_lookup hσ (fun b h hb => ?_) fun b hb => ?_
  · cases b with
    | var v => exact .pure h
    | _ => cases hb
  · cases b with
    | var => cases hb
    | _ => exact .fail not_false

theorem decides_callee (x : Name) :
    Decides (σ.Admits ⟨x, .callee⟩) (fun f => σ.lookup? x.text = some (.func f))
      (ctx.callee scopes x) := by
  refine decides_lookup hσ (fun b h hb => ?_) fun b hb => ?_
  · cases b with
    | func f => exact .pure h
    | _ => cases hb
  · cases b with
    | func => cases hb
    | _ => exact .fail not_false

theorem decides_device (d : Chipwright.Device) :
    Decides (∀ use ∈ d.uses, σ.Admits use)
      (fun d' => d'.names.map Occurrence.meaning = d.uses.map σ.meaning)
      (ctx.device scopes d) := by
  cases d with
  | direct pos slot => exact ⟨by simp [Chipwright.Device.uses], rfl⟩
  | named x =>
    have h : Decides (σ.Admits ⟨x, .device⟩)
        (fun d' => d'.names.map Occurrence.meaning = [σ.meaning ⟨x, .device⟩])
        (ctx.device scopes (.named x)) := by
      refine decides_lookup hσ (fun b h hb => ?_) fun b hb => ?_
      · cases b with
        | device d => exact .pure (by simp [Device.names, Occurrence.meaning, Place.meaning, h])
        | _ => cases hb
      · cases b with
        | device => cases hb
        | _ => exact .fail not_false
    exact h.imp (by simp [Chipwright.Device.uses]) fun _ _ hQ => hQ

theorem decides_expr (e : Chipwright.Expr) :
    Decides (∀ use ∈ e.uses, σ.Admits use)
      (fun e' => e'.names.map Occurrence.meaning = e.uses.map σ.meaning)
      (ctx.expr scopes e) := by
  induction e with
  | literal pos value => exact ⟨by simp [Chipwright.Expr.uses, Chipwright.Expr.names], rfl⟩
  | name x =>
    exact (decides_value hσ x).imp (by simp [Chipwright.Expr.uses, Chipwright.Expr.names])
      fun _ _ hQ => hQ
  | not pos operand ih => exact ih.map fun e' _ he' => he'
  | binary op left right ihleft ihright =>
    refine ihleft.andThen ?_ fun l _ hl => ihright.map fun r _ hr => ?_
    · simp only [Chipwright.Expr.uses, Chipwright.Expr.names, List.map_append,
        List.forall_mem_append]
    · simp only [Expr.names, List.map_append, hl, hr, Chipwright.Expr.uses, Chipwright.Expr.names]

theorem decides_exprs (es : List Chipwright.Expr) :
    Decides (∀ use ∈ es.flatMap Chipwright.Expr.uses, σ.Admits use)
      (fun es' => (es'.flatMap Expr.names).map Occurrence.meaning =
        (es.flatMap Chipwright.Expr.uses).map σ.meaning)
      (ctx.exprs scopes es) := by
  induction es with
  | nil => exact ⟨by simp, rfl⟩
  | cons e es ih =>
    refine (decides_expr hσ e).andThen ?_ fun e' _ he' => ih.map fun es' _ hes' => ?_
    · simp only [List.flatMap_cons, List.forall_mem_append]
    · simp only [List.flatMap_cons, List.map_append, he', hes']

end Names

theorem decides_checkProperty (pos : Position) (property : String) :
    Decides (ctx.strict = true → property ∈ knownProperties) (fun _ => True)
      (ctx.checkProperty pos property) := by
  unfold checkProperty
  cases hstrict : ctx.strict with
  | false => exact ⟨by simp, trivial⟩
  | true =>
    by_cases h : property ∈ knownProperties
    · simp [h, Decides]
    · rw [if_pos (by simp [h])]
      exact .fail (by simp [h])

/-! ### Definitions -/

theorem decides_define {place : Binding → Location} {x : String} {b : Binding} :
    Decides (scopes.inner.find? x = none)
      (fun scopes' => scopes' = { scopes with
        inner := { scopes.inner with entries := scopes.inner.entries ++ [(x, b)] } })
      (scopes.define place x b) := by
  unfold Scopes.define
  cases h : scopes.inner.find? x with
  | none => exact ⟨rfl, rfl⟩
  | some b => exact ⟨⟨_, rfl⟩, by simp⟩

theorem decides_newVariable (x : Name) :
    Decides (x.text ∉ (env.place ctx.function).names)
      (fun r => r.1 = (env.place ctx.function).newVariable x ∧
        r.2.place ctx.function = (env.place ctx.function).define x)
      (ctx.newVariable x env) := by
  refine (decides_define.map fun scopes' _ hscopes => ?_).imp Scope.find?_eq_none_iff
    fun _ _ hQ => hQ
  subst hscopes
  simp [Place.define, Place.newVariable, Env.place, Scopes.depth]

theorem decides_newVariables (xs : List Name) (hnodup : (env.place ctx.function).names.Nodup) :
    Decides ((env.place ctx.function).names ++ xs.map (·.text)).Nodup
      (fun r => r.1 = (env.place ctx.function).newVariables xs ∧
        r.2.place ctx.function = (env.place ctx.function).defineAll xs)
      (ctx.newVariables xs env) := by
  induction xs generalizing env with
  | nil => exact ⟨by simpa using hnodup, rfl, rfl⟩
  | cons x xs ih =>
    have hnodup' : ((env.place ctx.function).names ++ (x :: xs).map (·.text)).Nodup ↔
        x.text ∉ (env.place ctx.function).names ∧
          (((env.place ctx.function).define x).names ++ xs.map (·.text)).Nodup := by
      rw [Place.names_define, List.append_assoc]
      refine ⟨fun h => ⟨fun hx => ?_, h⟩, fun h => h.2⟩
      exact (List.nodup_append'.1 h).2.2 hx (by simp)
    refine (decides_newVariable x).andThen hnodup' fun r hx hr => ?_
    obtain ⟨v, env₁⟩ := r
    obtain ⟨rfl, hplace⟩ : v = _ ∧ env₁.place ctx.function = _ := hr
    rw [← hplace]
    refine (ih ?_).map fun r _ hr => ?_
    · rw [hplace, Place.names_define]
      exact List.nodup_append'.2 ⟨hnodup, by simp, by simpa using hx⟩
    · obtain ⟨vs, env₂⟩ := r
      obtain ⟨rfl, hplace₂⟩ : vs = _ ∧ env₂.place ctx.function = _ := hr
      exact ⟨by rw [hplace]; rfl, by rw [hplace₂, hplace]; rfl⟩

/-! ### Scopes -/

/-- The place after a block is the one before it, with the variables of the block passed. -/
theorem place_leave {function function' : Option String} {inner : Env} {τ : Place} {n : Nat}
    (hτ : inner.place function' = τ) (houter : τ.outer = σ.inner :: σ.outer)
    (hnext : τ.next = σ.next + n) (hfunction : σ.function = function) :
    ({ inner with scopes := inner.scopes.leave } : Env).place function = σ.skip n := by
  subst hτ
  obtain ⟨⟨innermost, outer⟩, next⟩ := inner
  cases outer with
  | nil => cases houter
  | cons scope outer =>
    obtain ⟨hscope, houter⟩ := List.cons.inj houter
    simp only [Env.place, Scopes.leave, Place.skip] at hscope houter hnext ⊢
    rw [hscope, houter, hnext, hfunction]

end Context

end Resolved

end Chipwright
