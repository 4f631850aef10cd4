import Chipwright.Proofs.LinkSafety
import Chipwright.Proofs.Lowering.Outcomes
import Chipwright.Proofs.Relabeling.CallGraph
import Chipwright.Proofs.Relabeling.Sections

/-!
# Lowering under other names and places

Lowering looks at names only to compare them, and tells them and the places in the texts it writes.
So two runs that start in states which are the same under other names go on alike: both give the
same code, or both fail for the same reason. Only the log is not compared.
-/
namespace Chipwright

variable {m : Relabeling}

theorem RegisterPool.matches_allocate (pool : RegisterPool) {construct construct' : String}
    (htext : m.SameText construct construct') {l l' : Option Location} (hplace : m.Moves l l') :
    Matches m.Retells Eq (pool.allocate construct l)
      (pool.allocate construct' l') := by
  unfold allocate
  cases pool.allocate? with
  | some r => exact Matches.ok rfl
  | none => exact Matches.error (.diagnostic rfl (fun hm => by rw [htext hm]) hplace)

/-- The table with other names. -/
def DeviceTable.relabel (m : Relabeling) (t : DeviceTable) : DeviceTable :=
  ⟨t.entries.map (Prod.map id m.name)⟩

theorem DeviceTable.carries_bind (t : DeviceTable) (name : String) (slot : Slot) {file : String}
    (pos : Position) :
    m.Carries (DeviceTable.relabel m) (t.bind name slot (some (pos.inFile file)))
      ((t.relabel m).bind (m.name name) slot (some ((m.pos pos).inFile file))) := by
  have hname : (t.relabel m).name? slot = (t.name? slot).map m.name := by
    unfold name? relabel
    induction t.entries with
    | nil => rfl
    | cons entry entries ih =>
      obtain ⟨slot', existing⟩ := entry
      rw [List.map_cons, Prod.map_apply, List.lookup_cons, List.lookup_cons, ih]
      change (match slot == slot' with | true => _ | false => _) = _
      cases slot == slot' <;> rfl
  unfold bind
  rw [hname]
  cases t.name? slot with
  | some existing =>
    refine Matches.error (.located file pos rfl fun hm => ?_)
    rw [hm name, hm existing]
  | none =>
    refine Matches.ok ?_
    simp [relabel]

namespace Lowering

/-! ## Expressions -/

@[simp] theorem Value.relabel_operand (opcode : Opcode) (x : Value) :
    x.operand.relabel m opcode = x.operand := by
  cases x <;> rfl

theorem Value.matches_release (x : Value) (pool : RegisterPool) :
    Matches m.Retells Eq (x.release pool) (x.release pool) := by
  refine Relabeling.Retells.same fun e he => ?_
  cases x with
  | immediate c => cases he
  | home r => cases he
  | scratch r =>
    obtain ⟨-, rfl⟩ := RegisterPool.release_eq_error.1 he
    exact ⟨rfl, rfl⟩

theorem Value.matches_releaseAll (xs : List Value) (pool : RegisterPool) :
    Matches m.Retells Eq (releaseAll pool xs) (releaseAll pool xs) := by
  induction xs generalizing pool with
  | nil => exact Matches.ok rfl
  | cons x xs ih =>
    refine (x.matches_release pool).bind ?_
    rintro pool' _ rfl
    exact ih pool'

/-- The same registers belong to the variables with other names. -/
def Homes.relabel (m : Relabeling) (homes : Homes) : Homes :=
  homes.map (Prod.map (Variable.relabel m) id)

theorem Homes.matches_get (homes : Homes) (v : Variable) :
    Matches m.Retells Eq (homes.get v) ((homes.relabel m).get (v.relabel m)) := by
  unfold get relabel
  rw [lookup_map_injective (Variable.relabel_injective m)]
  cases homes.lookup v with
  | some r => exact Matches.ok rfl
  | none => exact Matches.error ⟨rfl, fun hm => congrArg Failure.homeless (hm v.name), .none, rfl⟩

/-- What an expression gives: where the value is, the code, and the pool. -/
def SameValue {α : Type} (m : Relabeling) (a b : α × Code × RegisterPool) : Prop :=
  a.1 = b.1 ∧ a.2.1.Alike m b.2.1 ∧ a.2.2 = b.2.2

namespace ExprContext

variable {ctx ctx' : ExprContext}

/-- The same surroundings under other names and places. -/
structure Alike (m : Relabeling) (ctx ctx' : ExprContext) : Prop where
  file : ctx'.file = ctx.file
  homes : ctx'.homes = ctx.homes.relabel m
  origin : ctx.origin.Alike m ctx'.origin

theorem Alike.line (h : ctx.Alike m ctx') (opcode : Opcode) (xs : List Value) :
    Code.Alike m [ctx.origin.line opcode (xs.map Value.operand)]
      [ctx'.origin.line opcode (xs.map Value.operand)] := by
  have hline := Piece.Alike.line opcode (xs.map Value.operand) h.origin
  rw [List.map_map] at hline
  simp only [Function.comp_def, Value.relabel_operand] at hline
  exact .cons hline .nil

theorem Alike.matches_result (h : ctx.Alike m ctx') (target : Option Register)
    (pool : RegisterPool) :
    Matches m.Retells Eq (ctx.result target pool) (ctx'.result target pool) := by
  cases target with
  | some r => exact Matches.ok rfl
  | none =>
    have htext := h.origin.text.comp m fun text => s!"{text} (temporary)"
    have hplace := h.origin.place ctx.file
    unfold result
    rw [h.file]
    refine (pool.matches_allocate htext hplace).bind ?_
    rintro a _ rfl
    exact Matches.ok rfl

theorem Alike.matches_lower (h : ctx.Alike m ctx') (e : Resolved.Expr) (target : Option Register)
    (pool : RegisterPool) :
    Matches m.Retells (SameValue m) (ctx.lower e target pool)
      (ctx'.lower (e.relabel m) target pool) := by
  induction e generalizing target pool with
  | literal pos x => exact Matches.ok ⟨rfl, .nil, rfl⟩
  | const pos c => exact Matches.ok ⟨rfl, .nil, rfl⟩
  | var pos v =>
    simp only [Resolved.Expr.relabel, lower]
    rw [h.homes]
    refine (ctx.homes.matches_get v).bind ?_
    rintro r _ rfl
    exact Matches.ok ⟨rfl, .nil, rfl⟩
  | not pos operand ih =>
    simp only [Resolved.Expr.relabel, lower]
    refine (ih none pool).bind ?_
    rintro ⟨x, code, pool₁⟩ ⟨_, code', _⟩ ⟨rfl, hcode, rfl⟩
    refine (x.matches_release pool₁).bind ?_
    rintro pool₂ _ rfl
    refine (h.matches_result target pool₂).bind ?_
    rintro ⟨d, pool₃⟩ _ rfl
    exact Matches.ok ⟨rfl, hcode.append (h.line .seqz [d, x]), rfl⟩
  | binary op left right ihleft ihright =>
    simp only [Resolved.Expr.relabel, lower]
    refine (ihleft none pool).bind ?_
    rintro ⟨x, code₁, pool₁⟩ ⟨_, code₁', _⟩ ⟨rfl, hcode₁, rfl⟩
    refine (ihright none pool₁).bind ?_
    rintro ⟨y, code₂, pool₂⟩ ⟨_, code₂', _⟩ ⟨rfl, hcode₂, rfl⟩
    refine (x.matches_release pool₂).bind ?_
    rintro pool₃ _ rfl
    refine (y.matches_release pool₃).bind ?_
    rintro pool₄ _ rfl
    refine (h.matches_result target pool₄).bind ?_
    rintro ⟨d, pool₅⟩ _ rfl
    exact Matches.ok ⟨rfl, (hcode₁.append hcode₂).append (h.line op.opcode [d, x, y]), rfl⟩

theorem Alike.matches_lowerAll (h : ctx.Alike m ctx') (es : List Resolved.Expr)
    (pool : RegisterPool) :
    Matches m.Retells (SameValue m) (ctx.lowerAll es pool)
      (ctx'.lowerAll (es.map (Resolved.Expr.relabel m)) pool) := by
  induction es generalizing pool with
  | nil => exact Matches.ok ⟨rfl, .nil, rfl⟩
  | cons e es ih =>
    simp only [List.map_cons, lowerAll]
    refine (h.matches_lower e none pool).bind ?_
    rintro ⟨x, code₁, pool₁⟩ ⟨_, code₁', _⟩ ⟨rfl, hcode₁, rfl⟩
    refine (ih pool₁).bind ?_
    rintro ⟨xs, code₂, pool₂⟩ ⟨_, code₂', _⟩ ⟨rfl, hcode₂, rfl⟩
    exact Matches.ok ⟨rfl, hcode₁.append hcode₂, rfl⟩

theorem Alike.matches_lowerInto (h : ctx.Alike m ctx') (e : Resolved.Expr) (target : Register)
    (pool : RegisterPool) :
    Matches m.Retells (fun a b => a.1.Alike m b.1 ∧ a.2 = b.2) (ctx.lowerInto e target pool)
      (ctx'.lowerInto (e.relabel m) target pool) := by
  simp only [lowerInto]
  refine (h.matches_lower e (some target) pool).bind ?_
  rintro ⟨x, code, pool₁⟩ ⟨_, code', _⟩ ⟨rfl, hcode, rfl⟩
  dsimp only
  split
  · exact Matches.ok ⟨hcode, rfl⟩
  · refine (x.matches_release pool₁).bind ?_
    rintro pool₂ _ rfl
    exact Matches.ok ⟨hcode.append (h.line .move [.home target, x]), rfl⟩

end ExprContext

/-! ## Steps -/

/-- The state with other names. -/
def State.relabel (m : Relabeling) (s : State) : State :=
  { s with
    homes := s.homes.relabel m
    parameters := s.parameters.map (Prod.map (Prod.map m.name id) id)
    liveAtCalls := s.liveAtCalls.map (Prod.map m.name id)
    devices := s.devices.relabel m
    memory := Resolved.Memory.relabel m s.memory }

/-- The same state under other names, but for the log. -/
def State.Alike (m : Relabeling) (s s' : State) : Prop :=
  ∃ log, s' = { s.relabel m with log }

theorem State.Alike.keptFor_eq {s s' : State} (h : s.Alike m s') (f : String) :
    s'.keptFor (m.name f) = s.keptFor f := by
  obtain ⟨log, rfl⟩ := h
  simp only [State.keptFor, State.relabel, List.filter_map, List.flatMap_map]
  congr 2
  funext entry
  simp

theorem State.Alike.globalRegisters_eq {s s' : State} (h : s.Alike m s') :
    s'.globalRegisters = s.globalRegisters := by
  obtain ⟨log, rfl⟩ := h
  simp only [State.globalRegisters, State.relabel, Homes.relabel, List.filter_map, List.map_map]
  congr 1
  refine congrArg (List.filter · s.homes) (funext fun entry => ?_)
  obtain ⟨v, r⟩ := entry
  change ((v.function.map m.name).isNone && _) = _
  rw [Option.isNone_map]
  rfl

namespace Lower

variable {α β γ δ : Type} {R : α → β → Prop} {S : γ → δ → Prop}

/-- Both runs have gone through and their results and states belong together, or both have failed
for reasons that do. -/
def Ends (m : Relabeling) (R : α → β → Prop) :
    EStateM.Result Failure State α → EStateM.Result Failure State β → Prop
  | .ok a s, .ok b s' => R a b ∧ s.Alike m s'
  | .error e _, .error e' _ => m.Retells e e'
  | _, _ => False

/-- From states that are alike, two steps go on alike. -/
def Alike (m : Relabeling) (R : α → β → Prop) (x : Lower α) (y : Lower β) : Prop :=
  ∀ s s' : State, s.Alike m s' → Ends m R (x s) (y s')

namespace Alike

theorem bind {x : Lower α} {y : Lower β} {f : α → Lower γ} {g : β → Lower δ} (hx : Alike m R x y)
    (hf : ∀ a b, R a b → Alike m S (f a) (g b)) : Alike m S (x >>= f) (y >>= g) := by
  intro s s' hs
  have hfirst := hx s s' hs
  rw [bind_apply, bind_apply]
  cases hxs : x s with
  | ok a t =>
    cases hys : y s' with
    | ok b t' =>
      rw [hxs, hys] at hfirst
      exact hf a b hfirst.1 t t' hfirst.2
    | error e' t' =>
      rw [hxs, hys] at hfirst
      cases hfirst
  | error e t =>
    cases hys : y s' with
    | ok b t' =>
      rw [hxs, hys] at hfirst
      cases hfirst
    | error e' t' =>
      rw [hxs, hys] at hfirst
      exact hfirst

/-- A first step that gives the same in both runs. -/
theorem andThen {x y : Lower α} {f : α → Lower γ} {g : α → Lower δ}
    (hx : Alike m Eq x y) (hf : ∀ a, Alike m S (f a) (g a)) :
    Alike m S (x >>= f) (y >>= g) := by
  refine hx.bind ?_
  rintro a _ rfl
  exact hf a

theorem pure {a : α} {b : β} (h : R a b) : Alike m R (Pure.pure a) (Pure.pure b) :=
  fun _ _ hs => ⟨h, hs⟩

theorem get_state : Alike m (State.Alike m) get get := fun _ _ hs => ⟨hs, hs⟩

theorem modify_state {f g : State → State}
    (h : ∀ s s' : State, s.Alike m s' → (f s).Alike m (g s')) :
    Alike m (fun _ _ => True) (modify f) (modify g) :=
  fun s s' hs => ⟨trivial, h s s' hs⟩

theorem log_message (level : Level) (message message' : String) :
    Alike m (fun _ _ => True) (Lower.log level message) (Lower.log level message') := by
  refine modify_state ?_
  rintro s _ ⟨log, rfl⟩
  exact ⟨_, rfl⟩

theorem ofExcept {x : Except Failure α} {y : Except Failure β} (h : Matches m.Retells R x y) :
    Alike m R (Lower.ofExcept x) (Lower.ofExcept y) := by
  intro s s' hs
  cases x with
  | ok a =>
    obtain ⟨b, rfl, hab⟩ := h.exists_ok rfl
    exact ⟨hab, hs⟩
  | error e =>
    obtain ⟨e', rfl, he⟩ := h.exists_error rfl
    exact he

theorem throw_failure {e e' : Failure} (h : m.Retells e e') :
    Alike m R (throw e : Lower α) (throw e' : Lower β) :=
  fun _ _ _ => h

theorem onPool {f : State → Except Failure (α × RegisterPool)}
    {g : State → Except Failure (β × RegisterPool)}
    (h : ∀ s s' : State, s.Alike m s' →
      Matches m.Retells (fun a b => R a.1 b.1 ∧ a.2 = b.2) (f s) (g s')) :
    Alike m R (Lower.onPool f) (Lower.onPool g) := by
  intro s s' hs
  have hmatches := h s s' hs
  unfold Lower.onPool
  cases hx : f s with
  | ok a =>
    obtain ⟨a, pool⟩ := a
    obtain ⟨⟨b, pool'⟩, hy, hab, hpool⟩ := hmatches.exists_ok hx
    obtain rfl : pool = pool' := hpool
    rw [hy]
    obtain ⟨log, rfl⟩ := hs
    exact ⟨hab, log, rfl⟩
  | error e =>
    obtain ⟨e', hy, he⟩ := hmatches.exists_error hx
    rw [hy]
    exact he

theorem framed {x : Lower α} {y : Lower β} (h : Alike m R x y) :
    Alike m R (Lower.framed x) (Lower.framed y) := by
  unfold Lower.framed
  refine (onPool (R := fun _ _ => True) ?_).bind fun _ _ _ => h.bind fun a b hab => onPool ?_
  · rintro s _ ⟨log, rfl⟩
    exact Matches.ok ⟨trivial, rfl⟩
  · rintro s _ ⟨log, rfl⟩
    have hpop : Matches m.Retells Eq s.pool.pop s.pool.pop := by
      refine Relabeling.Retells.same fun e he => ?_
      obtain ⟨-, rfl⟩ := RegisterPool.pop_eq_error.1 he
      exact ⟨rfl, rfl⟩
    refine hpop.bind ?_
    rintro ⟨rs, pool⟩ _ rfl
    exact Matches.ok ⟨hab, rfl⟩

end Alike

end Lower

open Lower (Alike)

/-! ## Statements -/

namespace Context

variable {origin origin' : Origin}

/-- What stays the same, with other names. -/
def relabel (m : Relabeling) (ctx : Context) : Context :=
  { ctx with resolved := ctx.resolved.relabel m }

variable {ctx : Context}

theorem alike_exprContext (ctx : Context) (h : origin.Alike m origin') {s s' : State}
    (hs : s.Alike m s') :
    (ctx.exprContext origin s).Alike m ((ctx.relabel m).exprContext origin' s') := by
  obtain ⟨log, rfl⟩ := hs
  exact ⟨rfl, rfl, h⟩

theorem alike_allocate {construct construct' : String} (h : m.SameText construct construct')
    (pos : Position) :
    Alike m Eq (ctx.allocate construct pos) ((ctx.relabel m).allocate construct' (m.pos pos)) := by
  refine .onPool ?_
  rintro s _ ⟨log, rfl⟩
  refine (s.pool.matches_allocate h (.moved ctx.file pos)).mono (fun _ _ he => he) ?_
  rintro a _ rfl
  exact ⟨rfl, rfl⟩

theorem alike_home (v : Variable) :
    Alike m Eq (ctx.home v) ((ctx.relabel m).home (v.relabel m)) := by
  refine (alike_allocate (m.sameText (fun x => s!"variable '{x}'") v.name) v.pos).andThen
    fun r => (Alike.modify_state ?_).bind fun _ _ _ => .pure rfl
  rintro s _ ⟨log, rfl⟩
  exact ⟨log, rfl⟩

theorem alike_homeOf (v : Variable) : Alike m Eq (homeOf v) (homeOf (v.relabel m)) := by
  refine Alike.get_state.bind ?_
  rintro s _ ⟨log, rfl⟩
  exact .ofExcept (s.homes.matches_get v)

theorem alike_expr (h : origin.Alike m origin') (e : Resolved.Expr) :
    Alike m (fun a b => a.1 = b.1 ∧ a.2.Alike m b.2) (ctx.expr origin e)
      ((ctx.relabel m).expr origin' (e.relabel m)) := by
  refine .onPool fun s s' hs => ?_
  have hlower := (ctx.alike_exprContext h hs).matches_lower e none s.pool
  obtain ⟨log, rfl⟩ := hs
  refine hlower.bind ?_
  rintro ⟨x, code, pool⟩ ⟨_, code', _⟩ ⟨rfl, hcode, rfl⟩
  exact Matches.ok ⟨⟨rfl, hcode⟩, rfl⟩

theorem alike_exprs (h : origin.Alike m origin') (es : List Resolved.Expr) :
    Alike m (fun a b => a.1 = b.1 ∧ a.2.Alike m b.2) (ctx.exprs origin es)
      ((ctx.relabel m).exprs origin' (es.map (Resolved.Expr.relabel m))) := by
  refine .onPool fun s s' hs => ?_
  have hlower := (ctx.alike_exprContext h hs).matches_lowerAll es s.pool
  obtain ⟨log, rfl⟩ := hs
  refine hlower.bind ?_
  rintro ⟨xs, code, pool⟩ ⟨_, code', _⟩ ⟨rfl, hcode, rfl⟩
  exact Matches.ok ⟨⟨rfl, hcode⟩, rfl⟩

theorem alike_exprInto (h : origin.Alike m origin') (e : Resolved.Expr) (r : Register) :
    Alike m (Code.Alike m) (ctx.exprInto origin e r)
      ((ctx.relabel m).exprInto origin' (e.relabel m) r) := by
  refine .onPool fun s s' hs => ?_
  have hlower := (ctx.alike_exprContext h hs).matches_lowerInto e r s.pool
  obtain ⟨log, rfl⟩ := hs
  exact hlower

theorem alike_releaseAll (xs : List Value) : Alike m Eq (releaseAll xs) (releaseAll xs) := by
  refine .onPool ?_
  rintro s _ ⟨log, rfl⟩
  refine (Value.matches_releaseAll xs s.pool).bind ?_
  rintro pool _ rfl
  exact Matches.ok ⟨rfl, rfl⟩

theorem alike_nextLoop : Alike m Eq Lower.nextLoop Lower.nextLoop := by
  rintro s _ ⟨log, rfl⟩
  exact ⟨rfl, log, rfl⟩

theorem alike_nextConditional : Alike m Eq Lower.nextConditional Lower.nextConditional := by
  rintro s _ ⟨log, rfl⟩
  exact ⟨rfl, log, rfl⟩

theorem alike_search (body : List Resolved.Stmt) :
    Alike m Eq (ctx.search body) ((ctx.relabel m).search (Resolved.Stmt.relabelAll m body)) := by
  refine Alike.get_state.bind ?_
  rintro s _ ⟨log, rfl⟩
  refine (Alike.ofExcept (ctx.resolved.carries_search _ (.block body) s.memory)).bind ?_
  rintro ⟨found, memory⟩ _ rfl
  refine (Alike.modify_state ?_).bind fun _ _ _ => .pure rfl
  rintro s _ ⟨log, rfl⟩
  exact ⟨log, rfl⟩

theorem alike_checkLoop (pos : Position) (body : List Resolved.Stmt) :
    Alike m (fun _ _ => True) (ctx.checkLoop pos body)
      ((ctx.relabel m).checkLoop (m.pos pos) (Resolved.Stmt.relabelAll m body)) := by
  unfold checkLoop
  refine (alike_search body).andThen fun found => ?_
  split
  · exact .pure trivial
  · change Alike m _ (if ctx.options.requireYield = true then _ else _)
      (if ctx.options.requireYield = true then _ else _)
    split
    · exact Alike.bind (R := fun _ _ => True)
        (.throw_failure (.located ctx.file pos rfl fun _ => rfl))
        fun _ _ _ => .log_message _ _ _
    · exact .log_message _ _ _

theorem alike_argumentMoves (h : origin.Alike m origin') (f : String) (index : Int)
    (xs : List Value) :
    Code.Alike m (argumentMoves origin f index xs)
      (argumentMoves origin' (m.name f) index xs) := by
  induction xs generalizing index with
  | nil => exact .nil
  | cons x xs ih =>
    refine .cons ?_ (ih (index + 1))
    have hline := Piece.Alike.line (m := m) .move [.parameter f index, x.operand] h
    rw [List.map_cons, List.map_singleton, Value.relabel_operand] at hline
    exact hline

theorem alike_call (pos : Position) (f : String) (args : List Resolved.Expr) :
    Alike m (Code.Alike m) (ctx.call pos f args)
      ((ctx.relabel m).call (m.pos pos) (m.name f) (args.map (Resolved.Expr.relabel m))) := by
  have horigin : Origin.Alike m ⟨s!"call to '{f}'", pos⟩ ⟨s!"call to '{m.name f}'", m.pos pos⟩ :=
    Origin.alike (m.sameText (fun x => s!"call to '{x}'") f) pos
  refine (alike_exprs horigin args).bind ?_
  rintro ⟨xs, code⟩ ⟨_, code'⟩ ⟨rfl, hcode⟩
  refine (Alike.modify_state ?_).bind fun _ _ _ => (alike_releaseAll xs).andThen fun _ => .pure ?_
  · rintro s _ ⟨log, rfl⟩
    exact ⟨log, by simp [State.relabel]⟩
  · have hnote := Piece.Alike.note (m.sameText (fun x => s!"call {x}") f)
    have hjump := Piece.Alike.line .jumpAndLink [.label (.function f)] horigin
    exact (Code.Alike.append (.cons hnote hcode) (alike_argumentMoves horigin f 0 xs)).append
      (.cons hjump .nil)

mutual

theorem alike_stmt : ∀ st : Resolved.Stmt,
    Alike m (Code.Alike m) (ctx.stmt st) ((ctx.relabel m).stmt (st.relabel m))
  | .define pos v value => by
    simp only [Resolved.Stmt.relabel, stmt]
    refine (alike_home v).andThen fun r => ?_
    have horigin := Origin.alike (m.sameText (fun x => s!"definition of '{x}'") v.name) pos
    refine (alike_exprInto horigin value r).bind fun code code' hcode => .pure ?_
    exact hcode.remarked (m.sameText (fun x => s!"let {x}") v.name)
  | .assign pos v value => by
    simp only [Resolved.Stmt.relabel, stmt]
    refine (alike_homeOf v).andThen fun r => ?_
    have horigin := Origin.alike (m.sameText (fun x => s!"assignment to '{x}'") v.name) pos
    refine (alike_exprInto horigin value r).bind fun code code' hcode => .pure ?_
    exact hcode.remarked (m.sameText (fun x => s!"{x} = ...") v.name)
  | .block body => by
    simp only [Resolved.Stmt.relabel, stmt]
    exact (Alike.framed (alike_stmts body)).bind fun code code' hcode =>
      .pure (hcode.append (.cons .finish .nil))
  | .call pos f args => by
    simp only [Resolved.Stmt.relabel, stmt]
    exact (alike_call pos f.name args).bind fun code code' hcode =>
      .pure (hcode.append (.cons .finish .nil))
  | .loop pos body => by
    simp only [Resolved.Stmt.relabel, stmt]
    refine (alike_checkLoop pos body).bind fun _ _ _ => alike_nextLoop.andThen fun n =>
      (Alike.framed (alike_stmts body)).bind fun code code' hcode => .pure ?_
    have hjump := Piece.Alike.line .jump [.label (.loop n)] (Origin.alike (.refl m "loop") pos)
    exact (Code.Alike.append (.cons (.label (.loop n)) (.cons (.note (.refl m "loop")) .nil))
      hcode).append (.cons hjump (.cons .finish .nil))
  | .ifThen pos condition thenBody => by
    simp only [Resolved.Stmt.relabel, stmt]
    refine alike_nextConditional.andThen fun n => ?_
    have horigin := Origin.alike (.refl m "if condition") pos
    refine (alike_expr horigin condition).bind ?_
    rintro ⟨x, code⟩ ⟨_, code'⟩ ⟨rfl, hcode⟩
    refine (alike_releaseAll [x]).andThen fun _ =>
      (Alike.framed (alike_stmts thenBody)).bind fun thenCode thenCode' hthen => .pure ?_
    have hbranch := Piece.Alike.line .branchZero [x.operand, .label (.ifEnd n)] horigin
    rw [List.map_cons, Value.relabel_operand] at hbranch
    exact ((Code.Alike.append (.cons (.note (.refl m "if")) hcode) (.cons hbranch .nil)).append
      hthen).append (.cons (.label (.ifEnd n)) (.cons .finish .nil))
  | .ifElse pos condition thenBody elseBody => by
    simp only [Resolved.Stmt.relabel, stmt]
    refine alike_nextConditional.andThen fun n => ?_
    have horigin := Origin.alike (.refl m "if condition") pos
    refine (alike_expr horigin condition).bind ?_
    rintro ⟨x, code⟩ ⟨_, code'⟩ ⟨rfl, hcode⟩
    refine (alike_releaseAll [x]).andThen fun _ =>
      (Alike.framed (alike_stmts thenBody)).bind fun thenCode thenCode' hthen =>
        (Alike.framed (alike_stmts elseBody)).bind fun elseCode elseCode' helse => .pure ?_
    have hbranch := Piece.Alike.line .branchZero [x.operand, .label (.ifElse n)] horigin
    rw [List.map_cons, Value.relabel_operand] at hbranch
    have hjump := Piece.Alike.line .jump [.label (.ifEnd n)] (Origin.alike (.refl m "if") pos)
    have hbetween := List.Forall₂.cons hjump
      (.cons (.label (.ifElse n)) (.cons (.note (.refl m "else")) .nil))
    exact ((((Code.Alike.append (.cons (.note (.refl m "if")) hcode)
      (.cons hbranch .nil)).append hthen).append hbetween).append helse).append
        (.cons (.label (.ifEnd n)) (.cons .finish .nil))
  | .read pos device property targetPos v => by
    simp only [Resolved.Stmt.relabel, stmt, Resolved.Device.slot_relabel]
    refine (alike_homeOf v).andThen fun r => .pure ?_
    have hline := Piece.Alike.line .load [.register r, .device device.slot, .name property]
      (Origin.alike (.refl m s!"read of {device.slot.name}.{property}") pos)
    exact .cons (.note (.refl m _)) (.cons hline (.cons .finish .nil))
  | .write pos value device property => by
    simp only [Resolved.Stmt.relabel, stmt, Resolved.Device.slot_relabel]
    have horigin := Origin.alike (.refl m s!"write to {device.slot.name}.{property}") pos
    refine (alike_expr horigin value).bind ?_
    rintro ⟨x, code⟩ ⟨_, code'⟩ ⟨rfl, hcode⟩
    refine (alike_releaseAll [x]).andThen fun _ => .pure ?_
    have hline := Piece.Alike.line .store [.device device.slot, .name property, x.operand] horigin
    simp only [List.map_cons, List.map_nil, Value.relabel_operand] at hline
    exact Code.Alike.append (.cons (.note (.refl m _)) hcode) (.cons hline (.cons .finish .nil))
  | .yield pos => by
    simp only [Resolved.Stmt.relabel, stmt]
    exact .pure (.cons (.line .yield [] (Origin.alike (.refl m "yield") pos)) (.cons .finish .nil))

theorem alike_stmts : ∀ sts : List Resolved.Stmt,
    Alike m (Code.Alike m) (ctx.stmts sts) ((ctx.relabel m).stmts (Resolved.Stmt.relabelAll m sts))
  | [] => by
    simp only [Resolved.Stmt.relabelAll, stmts]
    exact .pure .nil
  | st :: sts => by
    simp only [Resolved.Stmt.relabelAll, stmts]
    exact (alike_stmt st).bind fun _ _ hcode₁ => (alike_stmts sts).bind fun _ _ hcode₂ =>
      .pure (hcode₁.append hcode₂)

end

theorem alike_item (i : Resolved.Item) :
    Alike m (Code.Alike m) (ctx.item i) ((ctx.relabel m).item (i.relabel m)) := by
  cases i with
  | nameSlot pos slotPos d =>
    simp only [Resolved.Item.relabel, item]
    refine Alike.get_state.bind ?_
    rintro s _ ⟨log, rfl⟩
    refine (Alike.ofExcept (s.devices.carries_bind d.name d.slot pos)).bind ?_
    rintro devices _ rfl
    refine (Alike.modify_state ?_).bind fun _ _ _ => ?_
    · rintro s _ ⟨log, rfl⟩
      exact ⟨log, rfl⟩
    · change Alike m _ (if ctx.options.emitAliases = true then _ else _)
        (if ctx.options.emitAliases = true then _ else _)
      split
      · have hline := Piece.Alike.line .nameDevice [.name d.name, .device d.slot]
          (Origin.alike (m.sameText (fun x => s!"alias '{x}'") d.name) pos)
        exact .pure (.cons hline (.cons .finish .nil))
      · exact .pure (.cons .finish .nil)
  | const c => exact .pure (.cons .finish .nil)
  | func f => exact .pure (.cons .finish .nil)
  | stmt st => exact alike_stmt st

theorem alike_items (is : List Resolved.Item) :
    Alike m (Code.Alike m) (ctx.items is)
      ((ctx.relabel m).items (is.map (Resolved.Item.relabel m))) := by
  induction is with
  | nil => exact .pure .nil
  | cons i is ih =>
    simp only [List.map_cons, items]
    exact (alike_item i).bind fun _ _ hcode₁ => ih.bind fun _ _ hcode₂ =>
      .pure (hcode₁.append hcode₂)

/-! ## Sections -/

theorem alike_parameters (f : String) (index : Int) (vs : List Variable) :
    Alike m (fun _ _ => True) (ctx.parameters f index vs)
      ((ctx.relabel m).parameters (m.name f) index (vs.map (Variable.relabel m))) := by
  induction vs generalizing index with
  | nil => exact .pure trivial
  | cons v vs ih =>
    simp only [List.map_cons, parameters]
    refine (alike_home v).andThen fun r => (Alike.modify_state ?_).bind fun _ _ _ => ih (index + 1)
    rintro s _ ⟨log, rfl⟩
    exact ⟨log, by simp [State.relabel]⟩

theorem alike_returnAddress {text text' : String} (htext : m.SameText text text')
    (pos : Position) (f : String) (makesCalls : Bool) :
    Alike m (fun a b => a.1 = b.1 ∧ a.2.Alike m b.2) (ctx.returnAddress ⟨text, pos⟩ f makesCalls)
      ((ctx.relabel m).returnAddress ⟨text', m.pos pos⟩ (m.name f) makesCalls) := by
  cases makesCalls with
  | true =>
    refine (alike_allocate (m.sameText (fun x => s!"return address of '{x}'") f) pos).andThen
      fun r => .pure ⟨rfl, ?_⟩
    exact .cons (.line .move [.register r, .register .ra] (Origin.alike htext pos)) .nil
  | false => exact .pure ⟨rfl, .nil⟩

theorem alike_enter : Alike m (fun _ _ => True)
    (modify fun s : State => { s with used := s.pool.used ++ s.used })
    (modify fun s => { s with used := s.pool.used ++ s.used }) := by
  refine .modify_state ?_
  rintro s _ ⟨log, rfl⟩
  exact ⟨log, rfl⟩

theorem matches_ofCount (count : Int) (kept : List Register) :
    Matches m.Retells Eq (RegisterPool.ofCount count kept) (RegisterPool.ofCount count kept) := by
  refine Relabeling.Retells.same fun e he => ?_
  unfold RegisterPool.ofCount at he
  split at he
  · cases he
  · cases he
    exact ⟨rfl, rfl⟩

/-- The section of the same function. -/
def SameFunction (m : Relabeling) (s s' : Section) : Prop :=
  s.Alike m s' ∧ s'.name = m.name s.name

theorem alike_function (globals : List Register) (makesCalls : Bool) (f : Resolved.Function) :
    Alike m (SameFunction m) (ctx.function globals makesCalls f)
      ((ctx.relabel m).function globals makesCalls (f.relabel m)) := by
  unfold function
  refine Alike.get_state.bind fun s s' hs => ?_
  have hkept : globals ++ s'.keptFor (f.relabel m).name = globals ++ s.keptFor f.name :=
    congrArg (globals ++ ·) (hs.keptFor_eq f.name)
  simp only [hkept]
  refine (Alike.onPool (R := fun _ _ => True) fun _ _ _ => ?_).bind fun _ _ _ => ?_
  · refine (matches_ofCount ctx.options.registerCount (globals ++ s.keptFor f.name)).bind ?_
    rintro pool _ rfl
    exact Matches.ok ⟨trivial, rfl⟩
  refine (alike_parameters f.name 0 f.params).bind fun _ _ _ => ?_
  have htext := m.sameText (fun x => s!"function '{x}'") f.name
  refine (alike_returnAddress htext f.pos f.name makesCalls).bind ?_
  rintro ⟨r, entry⟩ ⟨_, entry'⟩ ⟨rfl, hentry⟩
  refine (alike_stmts f.body).bind fun body body' hbody => ?_
  have hjump := Piece.Alike.line .jump [.register r] (Origin.alike htext f.pos)
  have hcode := ((Code.Alike.append (.cons (.label (.function f.name))
    (.cons (.note (m.sameText (fun x => s!"fn {x}") f.name)) .nil)) hentry).append hbody).append
      (.cons hjump .nil)
  have hsection := (Code.matches_toSection ctx.file ctx.options.emitComments
    (m.sameText id f.name) hcode).attach
  refine (Alike.ofExcept hsection).bind ?_
  rintro sect sect' ⟨hsect, hok, hok'⟩
  refine alike_enter.bind fun _ _ _ => (Alike.log_message _ _ _).bind fun _ _ _ =>
    .pure ⟨hsect, ?_⟩
  rw [Code.name_of_toSection hok, Code.name_of_toSection hok']
  rfl

theorem alike_functions (p : Resolved.Program) (globals : List Register) (names : List String) :
    Alike m (List.Forall₂ (SameFunction m)) (ctx.functions p p.callGraph globals names)
      ((ctx.relabel m).functions (p.relabel m) (p.relabel m).callGraph globals
        (names.map m.name)) := by
  induction names with
  | nil => exact .pure .nil
  | cons name names ih =>
    simp only [List.map_cons, functions, Resolved.Program.function?_relabel]
    cases p.function? name with
    | none =>
      exact .throw_failure
        ⟨rfl, fun hm => congrArg Failure.unknownFunction (hm name), .none, rfl⟩
    | some f =>
      have hcallees : ((p.relabel m).callGraph.callees (some (m.name name))).isEmpty =
          (p.callGraph.callees (some name)).isEmpty := by
        rw [Resolved.Program.callGraph_relabel]
        exact (congrArg List.isEmpty (Resolved.CallGraph.callees_relabel m _ (some name))).trans
          (List.isEmpty_map ..)
      simp only [Option.map_some, hcallees]
      exact (alike_function globals _ f).bind fun _ _ hsect => ih.bind fun _ _ hsects =>
        .pure (.cons hsect hsects)

theorem find?_name_alike {ss ss' : List Section} (h : List.Forall₂ (SameFunction m) ss ss')
    (name : String) :
    Option.Rel (SameFunction m) (ss.find? (·.name = name)) (ss'.find? (·.name = m.name name)) := by
  induction h with
  | nil => exact .none
  | @cons s s' ss ss' hs _ ih =>
    have hname : s'.name = m.name name ↔ s.name = name := by
      rw [hs.2, m.name.injective.eq_iff]
    by_cases heq : s.name = name
    · rw [List.find?_cons_of_pos (by simpa using heq),
        List.find?_cons_of_pos (by simpa using hname.2 heq)]
      exact .some hs
    · rw [List.find?_cons_of_neg (by simpa using heq),
        List.find?_cons_of_neg (by simpa using fun h => heq (hname.1 h))]
      exact ih

theorem alike_inSourceOrder {ss ss' : List Section} (h : List.Forall₂ (SameFunction m) ss ss')
    (fs : List Resolved.Function) :
    Alike m (List.Forall₂ (SameFunction m)) (inSourceOrder ss fs)
      (inSourceOrder ss' (fs.map (Resolved.Function.relabel m))) := by
  induction fs with
  | nil => exact .pure .nil
  | cons f fs ih =>
    have hfind : Option.Rel (SameFunction m) (ss.find? (·.name = f.name))
        (ss'.find? (·.name = (f.relabel m).name)) := find?_name_alike h f.name
    rw [List.map_cons, inSourceOrder, inSourceOrder]
    generalize ss.find? (·.name = f.name) = found at hfind ⊢
    generalize ss'.find? (·.name = (f.relabel m).name) = found' at hfind ⊢
    cases hfind with
    | none =>
      exact .throw_failure
        ⟨rfl, fun hm => congrArg Failure.unknownFunction (hm f.name), .none, rfl⟩
    | some hs => exact ih.bind fun _ _ hss => .pure (.cons hs hss)

/-- The same sections, whether there are functions or not. -/
theorem alike_sections (ctx : Context) (p : Resolved.Program) :
    Alike m (List.Forall₂ (Section.Alike m)) (ctx.sections p)
      ((ctx.relabel m).sections (p.relabel m)) := by
  have hempty : (p.relabel m).functions.isEmpty = p.functions.isEmpty := by
    rw [Resolved.Program.functions_relabel, List.isEmpty_map]
  have htoSection : ∀ {code code' : Code} (name : String), code.Alike m code' →
      Alike m (Section.Alike m)
        (Lower.ofExcept (Code.toSection ctx.file ctx.options.emitComments name code))
        (Lower.ofExcept (Code.toSection ctx.file ctx.options.emitComments name code')) :=
    fun name hcode => .ofExcept (Code.matches_toSection _ _ (.refl m name) hcode)
  unfold sections
  refine (alike_items p.items).bind fun code code' hcode => alike_enter.bind fun _ _ _ => ?_
  simp only [hempty]
  split
  · exact (htoSection mainSection hcode).bind fun _ _ hmain => .pure (.cons hmain .nil)
  · have hplace : Origin.Alike m ⟨"program end", .first⟩ ⟨"program end", .first⟩ :=
      ⟨.refl m _, fun file => .first file⟩
    have hexit := Piece.Alike.line .jump [.label .programEnd] hplace
    refine (htoSection mainSection (hcode.append (.cons hexit .nil))).bind fun main main' hmain =>
      Alike.get_state.bind fun s s' hs => ?_
    rw [hs.globalRegisters_eq, Resolved.Program.functionOrder_relabel,
      Resolved.Program.functions_relabel]
    refine (alike_functions p s.globalRegisters p.functionOrder).bind fun _ _ hss =>
      (alike_inSourceOrder hss p.functions).bind fun _ _ hfunctions => ?_
    refine (htoSection endSection (.cons (.label .programEnd) .nil)).bind fun _ _ hfinish =>
      .pure ?_
    exact List.rel_append (.cons hmain (hfunctions.imp fun _ _ h => h.1)) (.cons hfinish .nil)

end Context

end Lowering

end Chipwright
