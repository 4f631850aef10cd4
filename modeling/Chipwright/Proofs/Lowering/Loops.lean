import Chipwright.Proofs.Lowering.Build
import Chipwright.Proofs.Lowering.Congruence
import Chipwright.Proofs.Lowering.Lines

/-!
# Loops and their code

Loops are numbered in the order in which they are lowered. A loop that never yields gives a
warning, or it is refused if that is asked for. Where lowering without the demand succeeds, lowering
with it gives the same, or fails at the first loop that never yields: `Lower.Heeds` says that of a
step, and it is kept when steps follow each other.
-/
namespace Chipwright.Lowering

open Resolved (Loop)

/-! ### Warnings -/

/-- The warnings so far. -/
def State.warnings (s : State) : List String :=
  (s.log.filter (·.level = .warning)).map (·.message)

namespace Context

/-- The surroundings in which loops that never yield are refused. -/
def strict (ctx : Context) : Context :=
  { ctx with options := { ctx.options with requireYield := true } }

/-- The program is well scoped, and what is remembered of its functions is right. -/
def Trusts (ctx : Context) (s : State) : Prop :=
  ctx.resolved.WellScoped ∧ ctx.resolved.Remembers s.memory

end Context

/-- What comes of `result` if the given loops are refused: the first of them is reported. -/
def Refused {α : Type} (file : String) (result : EStateM.Result Failure State α) :
    List Loop → EStateM.Result Failure State α → Prop
  | [], result' => result' = result
  | l :: _, result' => ∃ s, result' = .error (.located file l.pos .missingYield) s

theorem Refused.bind {α β : Type} {file : String} {ls ls' : List Loop} {x x' : Lower α}
    {f f' : α → Lower β} {s s₁ : State} {a : α} (hok : x s = .ok a s₁)
    (h : Refused file (x s) ls (x' s)) (h' : Refused file (f a s₁) ls' (f' a s₁)) :
    Refused file ((x >>= f) s) (ls ++ ls') ((x' >>= f') s) := by
  cases ls with
  | nil =>
    have hsame : x' s = x s := h
    rw [Lower.bind_apply, Lower.bind_apply, hsame, hok]
    exact h'
  | cons l ls =>
    obtain ⟨t, ht⟩ := h
    exact ⟨t, by rw [Lower.bind_apply, ht]⟩

/-- What is left at the end: the same result, or the report of the first loop. -/
theorem Refused.outcome {α : Type} {file : String} {ls : List Loop} {a : α} {s : State}
    {result : EStateM.Result Failure State α} (h : Refused file (.ok a s) ls result) :
    (ls = [] → (Lower.outcome result).2 = .ok a) ∧
      ∀ l rest, ls = l :: rest →
        (Lower.outcome result).2 = .error (.located file l.pos .missingYield) := by
  cases ls with
  | nil =>
    have hsame : result = .ok a s := h
    refine ⟨fun _ => ?_, fun l rest hcons => ?_⟩
    · rw [hsame]
      rfl
    · cases hcons
  | cons l ls =>
    obtain ⟨s', rfl⟩ := h
    refine ⟨fun hnil => ?_, fun l' rest hcons => ?_⟩
    · cases hnil
    · cases hcons
      rfl

/-- Where a step `x` succeeds, in which the given loops are lowered, each of them has a number. If
what is remembered is right, it stays so, and there are warnings for the loops that never yield; and
`x'`, where these are refused, gives the same or reports the first of them. -/
def Lower.Heeds {α : Type} (ctx : Context) (ls : List Loop) (x x' : Lower α) : Prop :=
  ∀ s a s', x s = .ok a s' → s'.loops = s.loops + ls.length ∧
    (ctx.Trusts s → ctx.Trusts s' ∧
      s'.warnings = s.warnings ++ (ctx.resolved.silent ls).map (ctx.loopWarning ·.pos) ∧
      Refused ctx.file (x s) (ctx.resolved.silent ls) (x' s))

namespace Lower.Heeds

variable {α β : Type} {ctx : Context} {ls ls' : List Loop} {x x' : Lower α} {f f' : α → Lower β}

theorem bind (hx : x.Heeds ctx ls x') (hf : ∀ a, (f a).Heeds ctx ls' (f' a)) :
    (x >>= f).Heeds ctx (ls ++ ls') (x' >>= f') := by
  intro s b s' h
  obtain ⟨a, s₁, ha, hb⟩ := Lower.bind_eq_ok.1 h
  obtain ⟨hloops, hfirst⟩ := hx s a s₁ ha
  obtain ⟨hloops', hnext⟩ := hf a s₁ b s' hb
  refine ⟨by rw [List.length_append]; omega, fun htrusts => ?_⟩
  obtain ⟨htrusts₁, hwarnings, hrefused⟩ := hfirst htrusts
  obtain ⟨htrusts', hwarnings', hrefused'⟩ := hnext htrusts₁
  rw [Resolved.Program.silent_append]
  exact ⟨htrusts', by rw [hwarnings', hwarnings, List.map_append, List.append_assoc],
    hrefused.bind ha hrefused'⟩

/-- A step without loops before others. -/
theorem before (hx : x.Heeds ctx [] x') (hf : ∀ a, (f a).Heeds ctx ls (f' a)) :
    (x >>= f).Heeds ctx ls (x' >>= f') := hx.bind hf

/-- A step without loops after others. -/
theorem after (hx : x.Heeds ctx ls x') (hf : ∀ a, (f a).Heeds ctx [] (f' a)) :
    (x >>= f).Heeds ctx ls (x' >>= f') := by
  simpa using hx.bind hf

/-- A step that has nothing to do with loops. -/
theorem of_eq (heq : x' = x) (h : ∀ s a s', x s = .ok a s' →
      (s'.loops, s'.warnings, s'.memory) = (s.loops, s.warnings, s.memory)) :
    x.Heeds ctx [] x' := by
  intro s a s' hok
  subst heq
  obtain ⟨hloops, hwarnings, hmemory⟩ : s'.loops = s.loops ∧ s'.warnings = s.warnings ∧
      s'.memory = s.memory := by simpa using h s a s' hok
  refine ⟨hloops, fun htrusts => ⟨?_, ?_, rfl⟩⟩
  · rwa [Context.Trusts, hmemory]
  · simp [hwarnings, Resolved.Program.silent]

theorem pure (a : α) : (Pure.pure a : Lower α).Heeds ctx [] (Pure.pure a) :=
  .of_eq rfl fun s b s' h => by
    obtain ⟨-, rfl⟩ := Lower.pure_eq_ok.1 h
    rfl

theorem ofExcept (y : Except Failure α) :
    (Lower.ofExcept y).Heeds ctx [] (Lower.ofExcept y) :=
  .of_eq rfl fun s a s' h => by
    obtain ⟨-, rfl⟩ := Lower.ofExcept_eq_ok.1 h
    rfl

theorem onPool (f : State → Except Failure (α × RegisterPool)) :
    (Lower.onPool f).Heeds ctx [] (Lower.onPool f) :=
  .of_eq rfl fun s a s' h => by
    obtain ⟨pool, -, rfl⟩ := Lower.onPool_eq_ok.1 h
    rfl

theorem modify_state (g : State → State)
    (hlog : ∀ s, ((g s).loops, (g s).warnings, (g s).memory) =
      (s.loops, s.warnings, s.memory)) :
    (modify g : Lower Unit).Heeds ctx [] (modify g) :=
  .of_eq rfl fun s a s' h => by
    obtain rfl := Lower.modify_eq_ok.1 h
    exact hlog s

theorem get_state : (get : Lower State).Heeds ctx [] get :=
  .of_eq rfl fun s a s' h => by
    obtain ⟨-, rfl⟩ := Lower.get_eq_ok.1 h
    rfl

theorem debug (message : String) :
    (Lower.log .debug message).Heeds ctx [] (Lower.log .debug message) :=
  .modify_state _ fun s => by simp [State.warnings]

theorem throw_failure (e : Failure) (y : Lower α) : (throw e : Lower α).Heeds ctx ls y := by
  intro s a s' h
  cases Lower.throw_eq_ok.1 h

theorem framed (hx : x.Heeds ctx ls x') : (Lower.framed x).Heeds ctx ls (Lower.framed x') := by
  unfold Lower.framed
  exact (onPool _).before fun _ => hx.after fun _ => onPool _

end Lower.Heeds

namespace Context

open Lower (Heeds)

variable {ctx : Context} {p : Resolved.Program} {globals : List Register}

/-- A loop is looked at, and gets the next number. -/
theorem heeds_loop (pos : Position) (body : List Resolved.Stmt) :
    (ctx.checkLoop pos body >>= fun _ => Lower.nextLoop).Heeds ctx [⟨pos, body⟩]
      (ctx.strict.checkLoop pos body >>= fun _ => Lower.nextLoop) := by
  intro s n s' h
  obtain ⟨_, s₁, hcheck, hnext⟩ := Lower.bind_eq_ok.1 h
  obtain ⟨-, rfl⟩ := Lower.nextLoop_eq_ok.1 hnext
  obtain ⟨found, _, hsearch, hcheck⟩ := Lower.bind_eq_ok.1 hcheck
  obtain ⟨memory, hfound, rfl⟩ := search_eq_ok hsearch
  have hstrict : ctx.strict.search body s = .ok found { s with memory } := hsearch
  have hanswer : ctx.Trusts s → (found = true ↔ ctx.resolved.ComesToYield body) ∧
      ctx.resolved.Remembers memory := fun htrusts =>
    Resolved.Program.answers_search htrusts.1 _ _ htrusts.2 hfound
  cases found with
  | true =>
    obtain ⟨-, rfl⟩ := Lower.pure_eq_ok.1 hcheck
    refine ⟨rfl, fun htrusts => ?_⟩
    obtain ⟨hiff, hmemory⟩ := hanswer htrusts
    rw [Resolved.Program.silent_of_comesToYield (hiff.1 rfl)]
    refine ⟨⟨htrusts.1, hmemory⟩, by simp [State.warnings], ?_⟩
    simp [Refused, checkLoop, Lower.bind_apply, hsearch, hstrict]
  | false =>
    simp only [Bool.false_eq_true, if_false] at hcheck
    split at hcheck
    · simp [Lower.bind_eq_ok, Lower.throw_eq_ok] at hcheck
    · obtain rfl := Lower.log_eq_ok.1 hcheck
      refine ⟨rfl, fun htrusts => ?_⟩
      obtain ⟨hiff, hmemory⟩ := hanswer htrusts
      have hsilent : ¬ ctx.resolved.ComesToYield body := fun hcomes => by simpa using hiff.2 hcomes
      rw [Resolved.Program.silent_of_not_comesToYield hsilent]
      refine ⟨⟨htrusts.1, hmemory⟩, by simp [State.warnings], { s with memory }, ?_⟩
      simp only [checkLoop, Lower.bind_apply, hstrict]
      rfl

/-- Whatever is lowered heeds the loops in it. -/
theorem heeding (ctx : Context) :
    Lower.Congruence ctx ctx.strict fun ls _ x x' => x.Heeds ctx ls x' where
  pure := .pure
  bind := .bind
  throw _ e := .throw_failure e _
  framed := .framed
  allocate construct pos := .onPool _
  home v := .of_eq rfl fun s r s' h => by
    obtain ⟨_, _, _, -, rfl⟩ := home_eq_ok h
    rfl
  homeOf v := .of_eq rfl fun s r s' h => by
    obtain ⟨-, rfl⟩ := homeOf_eq_ok h
    rfl
  expr origin e := .onPool _
  exprs origin es := .onPool _
  exprInto origin e r := .onPool _
  releaseAll xs := .onPool _
  conditional := .of_eq rfl fun s n s' h => by
    obtain ⟨-, rfl⟩ := Lower.nextConditional_eq_ok.1 h
    rfl
  loop := heeds_loop
  call _ := .modify_state _ fun _ => rfl
  parameter _ _ _ := .modify_state _ fun _ => rfl

theorem heeds_item (i : Resolved.Item) :
    (ctx.item i).Heeds ctx (Resolved.Stmt.loops i.stmt?.toList) (ctx.strict.item i) := by
  cases i with
  | stmt st => exact ctx.heeding.stmt st
  | nameSlot pos written d =>
    refine Heeds.of_eq rfl fun s code s' h => ?_
    rcases item_eq_ok h with ⟨_, heq, -⟩ | ⟨-, ⟨devices, rfl⟩, -⟩
    · cases heq
    · rfl
  | const c => exact .pure _
  | func f => exact .pure _

theorem heeds_items (is : List Resolved.Item) :
    (ctx.items is).Heeds ctx (Resolved.Stmt.loops (is.filterMap Resolved.Item.stmt?))
      (ctx.strict.items is) := by
  induction is with
  | nil => exact .pure _
  | cons i is ih =>
    have hloops : Resolved.Stmt.loops ((i :: is).filterMap Resolved.Item.stmt?) =
        Resolved.Stmt.loops i.stmt?.toList ++
          Resolved.Stmt.loops (is.filterMap Resolved.Item.stmt?) := by
      cases hi : i.stmt? with
      | none => simp [hi]
      | some st => simp [hi, ← Resolved.Stmt.loops_cons]
    rw [hloops]
    exact (heeds_item i).bind fun _ => ih.after fun _ => .pure _

theorem heeds_enter :
    Heeds ctx [] (modify fun s : State => { s with used := s.pool.used ++ s.used })
      (modify fun s => { s with used := s.pool.used ++ s.used }) :=
  .modify_state _ fun _ => rfl

theorem heeds_function (makesCalls : Bool)
    (f : Resolved.Function) :
    (ctx.function globals makesCalls f).Heeds ctx (Resolved.Stmt.loops f.body)
      (ctx.strict.function globals makesCalls f) := by
  unfold function
  exact Heeds.get_state.before fun _ => (Heeds.onPool _).before fun _ =>
    (ctx.heeding.parameters _ _ _).before fun _ => (ctx.heeding.returnAddress _ _ _).before fun _ =>
      (ctx.heeding.stmts f.body).after fun _ => (Heeds.ofExcept _).before fun _ =>
        heeds_enter.before fun _ => (Heeds.debug _).before fun _ => .pure _

theorem heeds_functions {graph : Resolved.CallGraph}
    (names : List String) :
    (ctx.functions p graph globals names).Heeds ctx
      ((names.filterMap fun name => p.function? name).flatMap fun f => Resolved.Stmt.loops f.body)
      (ctx.strict.functions p graph globals names) := by
  induction names with
  | nil => exact .pure _
  | cons name names ih =>
    rw [functions, functions]
    cases hf : p.function? name with
    | none => exact .throw_failure _ _
    | some f =>
      simp only [List.filterMap_cons, hf, List.flatMap_cons]
      exact (heeds_function _ f).bind fun _ => ih.after fun _ => .pure _

theorem heeds_sections :
    (ctx.sections p).Heeds ctx p.loops (ctx.strict.sections p) := by
  unfold sections
  refine (heeds_items p.items).bind fun _ => heeds_enter.before fun _ => ?_
  split
  · rename_i hempty
    have horder : p.functionOrder = [] := by
      have hsub : p.functionOrder ⊆ p.callGraph.functions := p.callGraph.order_subperm.subset
      have hnil : p.callGraph.functions = [] := by
        simp [Resolved.Program.callGraph, List.isEmpty_iff.1 hempty]
      rw [hnil] at hsub
      exact List.eq_nil_of_subset_nil hsub
    rw [horder]
    exact (Heeds.ofExcept _).before fun _ => .pure _
  · exact (Heeds.ofExcept _).before fun _ => Heeds.get_state.before fun _ =>
      (heeds_functions _).after fun _ => (ctx.heeding.inSourceOrder _ _).before fun _ =>
        (Heeds.ofExcept _).before fun _ => .pure _

/-- A program heeds its loops. -/
theorem heeds_program :
    (ctx.program p).Heeds ctx p.loops (ctx.strict.program p) := by
  unfold program
  exact (heeds_sections).after fun _ => Heeds.get_state.before fun _ =>
    (Heeds.ofExcept _).before fun _ => (Heeds.debug _).before fun _ => .pure _

end Context

/-! ### Numbers -/

variable {ctx : Context} {p : Resolved.Program} {table : Homes} {outer own : List Variable}
  {s s' s₀ s₁ : State} {code : Code}

/-- Every loop of statements is given a number. -/
theorem loops_of_stmts {sts : List Resolved.Stmt} (h : ctx.stmts sts s = .ok code s') :
    s'.loops = s.loops + (Resolved.Stmt.loops sts).length :=
  (ctx.heeding.stmts sts s code s' h).1

/-! ### Code -/

/-- The code of a loop with the given number. -/
def loopCode (n : Nat) (pos : Position) (body : Code) : Code :=
  [.label (.loop n), .note "loop"] ++ body ++
    [Origin.line ⟨"loop", pos⟩ .jump [.label (.loop n)], .finish]

/-- The code of a loop stands in other code, and its calls were noted up to the state `s₁`. -/
def HoldsLoop (ctx : Context) (table : Homes) (s₁ : State) (code : Code) (l : Loop) (n : Nat) :
    Prop :=
  ∃ before body after outer own s s', code = before ++ loopCode n l.pos body ++ after ∧
    LoweredAll ctx table outer own l.body s body s' ∧
    ∀ e ∈ s'.liveAtCalls, e ∈ s₁.liveAtCalls

/-- What stands in a part stands in the whole. -/
theorem HoldsLoop.extend {l : Loop} {n : Nat} {code' : Code} (h : HoldsLoop ctx table s code l n)
    (hcode : code <:+: code') (hcalls : ∀ e ∈ s.liveAtCalls, e ∈ s₁.liveAtCalls) :
    HoldsLoop ctx table s₁ code' l n := by
  obtain ⟨before, body, after, outer, own, t, t', rfl, hbody, ht'⟩ := h
  obtain ⟨front, back, rfl⟩ := hcode
  exact ⟨front ++ before, body, after ++ back, outer, own, t, t', by simp, hbody,
    fun e he => hcalls e (ht' e he)⟩

/-- The jump at the end of a loop tells where the loop stands. -/
theorem Context.stmt_loop_eq {pos : Position} {body : List Resolved.Stmt}
    (h : ctx.stmt (.loop pos body) s = .ok code s') :
    ∃ memory log code₁ s₁ rs pool,
      ctx.stmts body { s with pool := s.pool.push, loops := s.loops + 1, memory, log } =
        .ok code₁ s₁ ∧
      s₁.pool.pop = .ok (rs, pool) ∧ code = loopCode s.loops pos code₁ ∧
      s' = { s₁ with pool } := by
  simp only [stmt, Lower.bind_eq_ok, Lower.pure_eq_ok, Lower.framed_eq_ok,
    Lower.nextLoop_eq_ok] at h
  obtain ⟨_, _, hcheck, _, _, ⟨rfl, rfl⟩, code₁, _, ⟨s₁, rs, pool, hbody, hpop, rfl⟩, rfl, rfl⟩ := h
  obtain ⟨memory, log, rfl⟩ := checkLoop_eq_ok hcheck
  exact ⟨memory, log, code₁, s₁, rs, pool, hbody, hpop, rfl, rfl⟩

mutual

theorem holdsLoop_of_stmt :
    ∀ (st : Resolved.Stmt) {own : List Variable} {s₀ s₁ : State} {code : Code},
      Lowered ctx table outer own st s₀ code s₁ →
      ∀ l n, (l, n) ∈ (Resolved.Stmt.loops [st]).zipIdx s₀.loops →
        HoldsLoop ctx table s₁ code l n
  | .block body, own, s₀, s₁, code, h => by
    obtain ⟨code₁, s, rs, pool, hbody, -, rfl, rfl⟩ := h.block
    intro l n hl
    rw [Resolved.Stmt.loops_block] at hl
    exact (holdsLoop_of_stmts body hbody l n hl).extend ⟨[], _, rfl⟩ fun _ he => he
  | .loop pos body, own, s₀, s₁, code, h => by
    obtain ⟨memory, log, code₁, s, rs, pool, hlower, -, rfl, rfl⟩ := Context.stmt_loop_eq h.lowered
    have hbody : LoweredAll ctx table outer own body
        { s₀ with pool := s₀.pool.push, loops := s₀.loops + 1, memory, log } code₁ s :=
      ⟨h.inner (.refl _) rfl fun e he => he, hlower, h.visible⟩
    intro l n hl
    rw [Resolved.Stmt.loops_loop, List.zipIdx_cons, List.mem_cons] at hl
    rcases hl with heq | hl
    · obtain ⟨rfl, rfl⟩ := Prod.mk.inj heq
      exact ⟨[], code₁, [], outer, own, _, s, by simp, hbody, fun _ he => he⟩
    · exact (holdsLoop_of_stmts body hbody l n hl).extend ⟨_, _, rfl⟩ fun _ he => he
  | .ifThen pos e body, own, s₀, s₁, code, h => by
    obtain ⟨finish, origin, x, code₁, pool₁, pool₂, code₂, s, rs, pool₃, -, -, -, hbody, -, rfl,
      rfl⟩ := h.ifThen
    intro l n hl
    rw [Resolved.Stmt.loops_ifThen] at hl
    exact (holdsLoop_of_stmts body hbody l n hl).extend ⟨_, _, rfl⟩ fun _ he => he
  | .ifElse pos e thenBody elseBody, own, s₀, s₁, code, h => by
    obtain ⟨middle, finish, origin, origin', x, code₁, pool₁, pool₂, code₂, s, rs, pool₃, code₃, s',
      rs', pool₄, -, -, -, hthen, -, -, helse, -, rfl, rfl⟩ := h.ifElse
    intro l n hl
    rw [Resolved.Stmt.loops_ifElse, List.zipIdx_append, List.mem_append] at hl
    rcases hl with hl | hl
    · refine (holdsLoop_of_stmts thenBody hthen l n hl).extend ?_ fun e he =>
        (Context.effect_of_stmts elseBody helse.lowered).mem_calls he
      exact ⟨.note "if" :: code₁ ++ [origin.line .branchZero [x.operand, .label middle]],
        [origin'.line .jump [.label finish], .label middle, .note "else"] ++ code₃ ++
          [.label finish, .finish], by simp⟩
    · have hcount := loops_of_stmts hthen.lowered
      rw [← hcount] at hl
      exact (holdsLoop_of_stmts elseBody helse l n hl).extend ⟨_, _, rfl⟩ fun _ he => he
  | .define .., _, _, _, _, _ | .assign .., _, _, _, _, _ | .call .., _, _, _, _, _
  | .read .., _, _, _, _, _ | .write .., _, _, _, _, _
  | .yield _, _, _, _, _, _ => fun _ _ hl => by cases hl

/-- Where statements were lowered, there is the code of every loop, with its number. -/
theorem holdsLoop_of_stmts :
    ∀ (sts : List Resolved.Stmt) {own : List Variable} {s₀ s₁ : State} {code : Code},
      LoweredAll ctx table outer own sts s₀ code s₁ →
      ∀ l n, (l, n) ∈ (Resolved.Stmt.loops sts).zipIdx s₀.loops → HoldsLoop ctx table s₁ code l n
  | [], _, _, _, _, _ => fun _ _ hl => by cases hl
  | st :: sts, own, s₀, s₁, code, h => by
    obtain ⟨code₁, s, code₂, h₁, h₂, rfl⟩ := h.cons
    intro l n hl
    rw [Resolved.Stmt.loops_cons, List.zipIdx_append, List.mem_append] at hl
    rcases hl with hl | hl
    · exact (holdsLoop_of_stmt st h₁ l n hl).extend (List.prefix_append ..).isInfix fun e he =>
        (Context.effect_of_stmts sts h₂.lowered).mem_calls he
    · rw [← (ctx.heeding.stmt st _ _ _ h₁.lowered).1] at hl
      exact (holdsLoop_of_stmts sts h₂ l n hl).extend (List.suffix_append ..).isInfix fun _ he => he

end

/-- The code of the loops of the top level, and how many there are. -/
theorem holdsLoop_of_items {is : List Resolved.Item}
    (h : LoweredItems ctx table own is s₀ code s₁) :
    s₁.loops = s₀.loops + (Resolved.Stmt.loops (is.filterMap Resolved.Item.stmt?)).length ∧
      ∀ l n, (l, n) ∈
        (Resolved.Stmt.loops (is.filterMap Resolved.Item.stmt?)).zipIdx s₀.loops →
        HoldsLoop ctx table s₁ code l n := by
  induction is generalizing own s₀ code with
  | nil =>
    obtain ⟨-, rfl⟩ := Context.items_nil_eq_ok h.lowered
    exact ⟨rfl, fun _ _ hl => by cases hl⟩
  | cons i is ih =>
    obtain ⟨code₁, s, code₂, rfl, ⟨st, rfl, h₁, h₂⟩ | ⟨hnone, ⟨devices, rfl⟩, -, h₂⟩⟩ := h.cons
    · obtain ⟨hcount, hloops⟩ := ih h₂
      have hfirst := (ctx.heeding.stmt st _ _ _ h₁.lowered).1
      have hsplit : Resolved.Stmt.loops ((.stmt st :: is).filterMap Resolved.Item.stmt?) =
          Resolved.Stmt.loops [st] ++ Resolved.Stmt.loops (is.filterMap Resolved.Item.stmt?) :=
        Resolved.Stmt.loops_cons ..
      rw [hsplit]
      refine ⟨by rw [hcount, hfirst, List.length_append, Nat.add_assoc], fun l n hl => ?_⟩
      rw [List.zipIdx_append, ← hfirst, List.mem_append] at hl
      rcases hl with hl | hl
      · exact (holdsLoop_of_stmt st h₁ l n hl).extend (List.prefix_append ..).isInfix fun e he =>
          (Context.effect_of_items h₂.lowered).mem_calls he
      · exact (hloops l n hl).extend (List.suffix_append ..).isInfix fun _ he => he
    · obtain ⟨hcount, hloops⟩ := ih h₂
      rw [List.filterMap_cons_none hnone]
      exact ⟨hcount, fun l n hl =>
        (hloops l n hl).extend (List.suffix_append ..).isInfix fun _ he => he⟩

/-! ### Programs -/

namespace Context

theorem loops_of_function {globals : List Register} {makesCalls : Bool} {f : Resolved.Function}
    {sect : Section} (h : ctx.function globals makesCalls f s = .ok sect s') :
    s'.loops = s.loops + (Resolved.Stmt.loops f.body).length := by
  obtain ⟨r, entry, s₁, body, s₂, log, henter, hbody, -, rfl⟩ := function_eq_ok h
  obtain ⟨rs, pool, pool₁, -, -, -, rfl⟩ := enter_eq_ok henter
  have hcount := loops_of_stmts hbody
  exact hcount

/-- Every loop of the functions is a loop of one of their passes. -/
theorem exists_pass_of_loop {globals : List Register} {names : List String} {xs : List Pass}
    (h : ctx.passes p globals names s = .ok xs s') {l : Loop} {n : Nat}
    (hl : (l, n) ∈ ((names.filterMap fun name => p.function? name).flatMap fun f =>
      Resolved.Stmt.loops f.body).zipIdx s.loops) :
    ∃ x ∈ xs, (l, n) ∈ (Resolved.Stmt.loops x.function.body).zipIdx x.before.loops := by
  induction names generalizing s xs with
  | nil => cases hl
  | cons name names ih =>
    obtain ⟨f, sect, s₁, xs', hf, hsect, hxs', rfl⟩ := passes_cons_eq_ok h
    simp only [List.filterMap_cons, hf, List.flatMap_cons, List.zipIdx_append,
      ← loops_of_function hsect, List.mem_append] at hl
    rcases hl with hl | hl
    · exact ⟨_, List.mem_cons_self .., hl⟩
    · obtain ⟨x, hx, hl⟩ := ih hxs' hl
      exact ⟨x, List.mem_cons_of_mem _ hx, hl⟩

end Context

namespace Build

variable {a : Assembly}

/-- The routine of a pass, with the number of its first loop. -/
theorem exists_settled_of_pass (b : Build ctx p a) (hp : p.WellScoped) {x : Pass}
    (hx : x ∈ b.passes) :
    ∃ k q, b.Settled k q ∧ q.function = x.function ∧ q.start.loops = x.before.loops := by
  have hsettled := b.settled_of_mem_passes hx
  have hmem := (Resolved.Program.mem_of_function? hsettled.known).1
  obtain ⟨k, hk, hfunction⟩ := List.getElem_of_mem hmem
  have hget : p.functions[k]? = some x.function := by rw [List.getElem?_eq_getElem hk, hfunction]
  obtain ⟨y, hy, hsame, hsect⟩ := b.exists_pass hp hget
  obtain rfl := b.eq_of_mem_passes hp hy hx (by rw [hsame])
  obtain ⟨r, entry, s₁, body, s₂, log, henter, hbody, hcode, hafter⟩ :=
    Context.function_eq_ok hsettled.step
  obtain ⟨rs, hmade⟩ := Context.made_of_enter henter hbody
  obtain ⟨rs', pool, pool₁, -, -, -, rfl⟩ := Context.enter_eq_ok henter
  exact ⟨k, _, b.settled_of_made hp hx hget hsect rfl hmade hcode hafter, rfl, rfl⟩

/-- The code of every loop of a program stands in a section. What the loop calls is called by the
function whose section that is, or by the top-level code. -/
theorem exists_holdsLoop (b : Build ctx p a) (hp : p.WellScoped) {l : Loop} {n : Nat}
    (h : p.loops[n]? = some l) :
    ∃ (k : Nat) (sect : Section) (name : String) (code : Code), a.sections[k]? = some sect ∧
      Code.toSection ctx.file ctx.options.emitComments name code = .ok sect ∧
      HoldsLoop ctx b.table b.final code l n ∧
      ∃ caller, ∀ f, Resolved.Stmt.HasCall l.body f → f ∈ p.callGraph.callees caller := by
  have hl : (l, n) ∈ p.loops.zipIdx := List.mem_zipIdx_iff_getElem?.2 h
  obtain ⟨hcount, hmain⟩ := holdsLoop_of_items (b.lowered hp)
  rw [Resolved.Program.loops, List.zipIdx_append, List.mem_append] at hl
  rcases hl with hl | hl
  · obtain ⟨sect, hsect, hcode⟩ := b.mainSection
    refine ⟨0, sect, _, _, hsect, hcode, (hmain l n hl).extend (List.prefix_append ..).isInfix
      b.grows.calls, none, fun f hf => Resolved.Program.mem_callees_main ?_⟩
    exact Resolved.Stmt.hasCall_iff.1
      (Resolved.Stmt.hasCall_of_mem_loops (List.fst_mem_of_mem_zipIdx hl) hf)
  · have htop : b.top.loops = 0 + (Resolved.Stmt.loops p.main).length := hcount
    rw [← htop] at hl
    obtain ⟨x, hx, hl⟩ := Context.exists_pass_of_loop b.passed hl
    obtain ⟨k, q, hq, hfunction, hloops⟩ := b.exists_settled_of_pass hp hx
    rw [← hfunction, ← hloops] at hl
    obtain ⟨sect, hsect, hcode⟩ := hq.sect
    refine ⟨k + 1, sect, _, _, hsect, hcode,
      (holdsLoop_of_stmts _ hq.lowered l n hl).extend ?_ hq.calls, some q.function.name,
      fun f hf => Resolved.Program.mem_callees (List.mem_of_getElem? hq.function) ?_⟩
    · exact ⟨_, _, rfl⟩
    · exact Resolved.Stmt.hasCall_iff.1
        (Resolved.Stmt.hasCall_of_mem_loops (List.fst_mem_of_mem_zipIdx hl) hf)

end Build

end Chipwright.Lowering
