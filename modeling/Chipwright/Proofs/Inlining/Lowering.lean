import Chipwright.Proofs.Inlining.Resolver
import Chipwright.Proofs.Lowering.Congruence

/-!
# Lowering with constants and slots in place of their names

A name for a constant gives the same operand as its value, and a name for a slot the same as the
slot. What lowering notes down about the names of slots is read when another slot is named, and by
nothing else. So statements with constants and slots in place of their names give the same code,
whatever names slots have. At the top level, a definition of such a name only ends a statement in
the code, and the end of a statement without remarks can be left out.
-/
namespace Chipwright

open Lowering

namespace Resolved

/-! ## Yields -/

/-- A way with constants and slots in place of their names. -/
def Way.inlined : Way → Way
  | .yield => .yield
  | .block body => .block (Stmt.inlinedAll body)
  | .function name => .function name

theorem Stmt.ways_inlined (st : Stmt) : st.inlined.ways = st.ways.map Way.inlined := by
  cases st <;> rfl

theorem Stmt.ways_inlinedAll (sts : List Stmt) :
    (Stmt.inlinedAll sts).flatMap Stmt.ways = (sts.flatMap Stmt.ways).map Way.inlined := by
  induction sts with
  | nil => rfl
  | cons st sts ih =>
    simp only [inlinedAll, List.flatMap_cons, ways_inlined, ih, List.map_append]

namespace Program

variable (p : Program)

theorem function?_inlined (name : String) :
    p.inlined.function? name = (p.function? name).map Function.inlined := by
  rw [function?, functions_inlined, List.find?_map]
  rfl

/-- A search for a `yield` goes the same ways. -/
theorem search_inlined (depth : Nat) (w : Way) :
    p.inlined.search depth w.inlined = p.search depth w := by
  induction depth generalizing w with
  | zero => cases w <;> rfl
  | succ depth ih =>
    have hany : ∀ ws : List Way,
        (ws.map Way.inlined).anyM (p.inlined.search depth) = ws.anyM (p.search depth) := by
      intro ws
      induction ws with
      | nil => rfl
      | cons w ws ihws => simp only [List.map_cons, List.anyM, ih, ihws]
    cases w with
    | yield => rfl
    | block body => simp only [Way.inlined, search, Stmt.ways_inlinedAll, hany]
    | function name =>
      funext memory
      simp only [Way.inlined, search, function?_inlined]
      cases memory.lookup name with
      | some found => rfl
      | none =>
        cases p.function? name with
        | none => rfl
        | some f => exact congrArg (fun x : Search => x memory >>= _) (ih (.block f.body))

end Program

end Resolved

namespace Lowering

variable {comments : Bool}

/-! ## Expressions -/

namespace ExprContext

variable (ctx : ExprContext)

theorem lower_inlined (e : Resolved.Expr) (target : Option Register) (pool : RegisterPool) :
    ctx.lower e.inlined target pool = ctx.lower e target pool := by
  induction e generalizing target pool with
  | literal | var | const => rfl
  | not pos e ih => simp only [Resolved.Expr.inlined, lower, ih]
  | binary op left right ihleft ihright => simp only [Resolved.Expr.inlined, lower, ihleft, ihright]

theorem lowerAll_inlined (es : List Resolved.Expr) (pool : RegisterPool) :
    ctx.lowerAll (es.map Resolved.Expr.inlined) pool = ctx.lowerAll es pool := by
  induction es generalizing pool with
  | nil => rfl
  | cons e es ih => simp only [List.map_cons, lowerAll, lower_inlined, ih]

theorem lowerInto_inlined (e : Resolved.Expr) (target : Register) (pool : RegisterPool) :
    ctx.lowerInto e.inlined target pool = ctx.lowerInto e target pool := by
  simp only [lowerInto, lower_inlined]

end ExprContext

/-! ## Statements and functions -/

namespace Context

variable (ctx : Context)

/-- The surroundings with constants and slots in place of their names. -/
def inlined : Context := { ctx with resolved := ctx.resolved.inlined }

theorem checkLoop_inlined (pos : Position) (body : List Resolved.Stmt) :
    ctx.inlined.checkLoop pos (Resolved.Stmt.inlinedAll body) = ctx.checkLoop pos body := by
  have hsearch := ctx.resolved.search_inlined ctx.options.limits.search (.block body)
  simp only [Resolved.Way.inlined] at hsearch
  simp only [checkLoop, search, inlined, hsearch]
  rfl

mutual

theorem stmt_inlined : ∀ st : Resolved.Stmt, ctx.inlined.stmt st.inlined = ctx.stmt st
  | .define pos v e | .assign pos v e => by
    simp only [Resolved.Stmt.inlined, stmt, exprInto, ExprContext.lowerInto_inlined]
    rfl
  | .block body => by simp only [Resolved.Stmt.inlined, stmt, stmts_inlined body]
  | .call pos f args => by
    simp only [Resolved.Stmt.inlined, stmt, call, exprs, ExprContext.lowerAll_inlined]
    rfl
  | .loop pos body => by
    simp only [Resolved.Stmt.inlined, stmt, checkLoop_inlined, stmts_inlined body]
  | .ifThen pos e body => by
    simp only [Resolved.Stmt.inlined, stmt, expr, ExprContext.lower_inlined, stmts_inlined body]
    rfl
  | .ifElse pos e thenBody elseBody => by
    simp only [Resolved.Stmt.inlined, stmt, expr, ExprContext.lower_inlined,
      stmts_inlined thenBody, stmts_inlined elseBody]
    rfl
  | .write pos e device property => by
    simp only [Resolved.Stmt.inlined, stmt, expr, ExprContext.lower_inlined]
    rfl
  | .read .. | .yield _ => rfl

theorem stmts_inlined : ∀ sts : List Resolved.Stmt,
    ctx.inlined.stmts (Resolved.Stmt.inlinedAll sts) = ctx.stmts sts
  | [] => rfl
  | st :: sts => by
    simp only [Resolved.Stmt.inlinedAll, stmts, stmt_inlined st, stmts_inlined sts]

end

theorem parameters_inlined (f : String) (index : Int) (vs : List Variable) :
    ctx.inlined.parameters f index vs = ctx.parameters f index vs := by
  induction vs generalizing index with
  | nil => rfl
  | cons v vs ih =>
    simp only [parameters, ih]
    rfl

theorem functions_inlined (p : Resolved.Program) (graph : Resolved.CallGraph)
    (globals : List Register) (names : List String) :
    ctx.inlined.functions p.inlined graph globals names = ctx.functions p graph globals names := by
  induction names with
  | nil => rfl
  | cons name names ih =>
    simp only [functions, Resolved.Program.function?_inlined, ih]
    cases p.function? name with
    | none => rfl
    | some f =>
      simp only [Option.map_some, function, Resolved.Function.inlined, stmts_inlined,
        parameters_inlined]
      rfl

theorem inSourceOrder_inlined (sections : List Section) (fs : List Resolved.Function) :
    inSourceOrder sections (fs.map Resolved.Function.inlined) = inSourceOrder sections fs := by
  induction fs with
  | nil => rfl
  | cons f fs ih =>
    simp only [List.map_cons, inSourceOrder, ih]
    rfl

end Context

/-! ## Steps -/

/-- Where a step succeeds, another one does the same, whatever names slots have there. -/
def Lower.Mirrors {α : Type} (x x' : Lower α) : Prop :=
  ∀ (s s' : State) (a : α) (devices : DeviceTable), x s = .ok a s' →
    x' { s with devices } = .ok a { s' with devices }

namespace Lower.Mirrors

variable {α β : Type} {x x' : Lower α}

theorem bind {f f' : α → Lower β} (hx : x.Mirrors x') (hf : ∀ a, (f a).Mirrors (f' a)) :
    (x >>= f).Mirrors (x' >>= f') := by
  intro s s' b devices h
  obtain ⟨a, s₁, ha, hb⟩ := Lower.bind_eq_ok.1 h
  exact Lower.bind_eq_ok.2 ⟨a, _, hx s s₁ a devices ha, hf a s₁ s' b devices hb⟩

theorem pure (a : α) : (Pure.pure a : Lower α).Mirrors (Pure.pure a) := by
  intro s s' b devices h
  obtain ⟨rfl, rfl⟩ := Lower.pure_eq_ok.1 h
  rfl

theorem get_bind {f f' : State → Lower α}
    (h : ∀ s devices, (f s).Mirrors (f' { s with devices })) :
    (get >>= f).Mirrors (get >>= f') :=
  fun s s' a devices hstep => h s devices s s' a devices hstep

theorem modify_state {g : State → State}
    (h : ∀ s devices, g { s with devices } = { g s with devices }) :
    (modify g : Lower Unit).Mirrors (modify g) := by
  intro s s' a devices hstep
  obtain rfl := Lower.modify_eq_ok.1 hstep
  rw [Lower.modify_apply, h]

theorem ofExcept (y : Except Failure α) : (Lower.ofExcept y).Mirrors (Lower.ofExcept y) := by
  intro s s' a devices h
  obtain ⟨rfl, rfl⟩ := Lower.ofExcept_eq_ok.1 h
  rfl

theorem throw_failure (e : Failure) (y : Lower α) : (throw e : Lower α).Mirrors y := nofun

theorem log (level : Level) (message : String) :
    (Lower.log level message).Mirrors (Lower.log level message) :=
  modify_state fun _ _ => rfl

theorem onPool {f f' : State → Except Failure (α × RegisterPool)}
    (h : ∀ s devices, f' { s with devices } = f s) :
    (Lower.onPool f).Mirrors (Lower.onPool f') := by
  intro s s' a devices hstep
  obtain ⟨pool, hf, rfl⟩ := Lower.onPool_eq_ok.1 hstep
  exact Lower.onPool_eq_ok.2 ⟨pool, (h s devices).trans hf, rfl⟩

theorem framed (hx : x.Mirrors x') : (Lower.framed x).Mirrors (Lower.framed x') := by
  unfold Lower.framed
  exact (onPool fun _ _ => rfl).bind fun _ => hx.bind fun _ => onPool fun _ _ => rfl

end Lower.Mirrors

namespace Context

variable (ctx : Context)

/-- What is lowered does not depend on the names of slots. -/
theorem mirroring : Lower.Congruence ctx ctx fun _ _ x x' => x.Mirrors x' where
  pure := .pure
  bind := .bind
  throw _ e := .throw_failure e _
  framed := .framed
  allocate construct pos := .onPool fun _ _ => rfl
  home v := (Lower.Mirrors.onPool fun _ _ => rfl).bind fun _ =>
    (Lower.Mirrors.modify_state fun _ _ => rfl).bind fun _ => .pure _
  homeOf v := .get_bind fun _ _ => .ofExcept _
  expr origin e := .onPool fun _ _ => rfl
  exprs origin es := .onPool fun _ _ => rfl
  exprInto origin e r := .onPool fun _ _ => rfl
  releaseAll xs := .onPool fun _ _ => rfl
  conditional s s' n devices h := by
    obtain ⟨rfl, rfl⟩ := Lower.nextConditional_eq_ok.1 h
    rfl
  loop pos body := by
    refine Lower.Mirrors.bind ?_ fun _ s s' n devices h => ?_
    · refine Lower.Mirrors.bind ?_ fun found => ?_
      · exact .get_bind fun _ _ => (Lower.Mirrors.ofExcept _).bind fun _ =>
          (Lower.Mirrors.modify_state fun _ _ => rfl).bind fun _ => .pure _
      · split
        · exact .pure _
        · split
          · exact Lower.Mirrors.bind (.throw_failure _ _) fun _ => .log _ _
          · exact .log _ _
    · obtain ⟨rfl, rfl⟩ := Lower.nextLoop_eq_ok.1 h
      rfl
  call _ := .modify_state fun _ _ => rfl
  parameter _ _ _ := .modify_state fun _ _ => rfl

theorem mirrors_functions (p : Resolved.Program) (graph : Resolved.CallGraph)
    (globals : List Register) (names : List String) :
    (ctx.functions p graph globals names).Mirrors (ctx.functions p graph globals names) := by
  induction names with
  | nil => exact .pure _
  | cons name names ih =>
    rw [functions]
    cases p.function? name with
    | none => exact .throw_failure _ _
    | some f =>
      refine Lower.Mirrors.bind ?_ fun _ => ih.bind fun _ => .pure _
      unfold function
      exact .get_bind fun _ _ => (Lower.Mirrors.onPool fun _ _ => rfl).bind fun _ =>
        (ctx.mirroring.parameters _ _ _).bind fun _ =>
          (ctx.mirroring.returnAddress _ _ _).bind fun _ =>
            (ctx.mirroring.stmts f.body).bind fun _ => (Lower.Mirrors.ofExcept _).bind fun _ =>
              (Lower.Mirrors.modify_state fun _ _ => rfl).bind fun _ =>
                (Lower.Mirrors.log _ _).bind fun _ => .pure _

end Context

/-! ## Code -/

/-- Code without some ends of statements that have no other code. -/
inductive Code.Trimmed : Code → Code → Prop
  | nil : Trimmed [] []
  | keep {first code code' : Code} : Trimmed code code' →
    Trimmed (first ++ .finish :: code) (first ++ .finish :: code')
  | drop {code code' : Code} : Trimmed code code' → Trimmed (.finish :: code) code'

theorem Draft.addAll_append {file : String} (d : Draft) (code more : Code) :
    d.addAll file comments (code ++ more) =
      d.addAll file comments code >>= fun d => d.addAll file comments more := by
  induction code generalizing d with
  | nil => rfl
  | cons piece code ih =>
    rw [List.cons_append, addAll, addAll]
    cases d.add file comments piece with
    | error e => rfl
    | ok d => exact ih d

/-- Between statements there are no remarks that an end of a statement could drop. -/
theorem Code.Trimmed.addAll_eq {file : String} {code code' : Code} (h : code.Trimmed code')
    (more : Code) {d : Draft} (hd : d.notes = []) :
    d.addAll file comments (code ++ more) = d.addAll file comments (code' ++ more) := by
  induction h generalizing d with
  | nil => rfl
  | @keep first code code' _ ih =>
    rw [List.append_assoc, List.append_assoc, Draft.addAll_append, Draft.addAll_append]
    cases d.addAll file comments first with
    | error e => rfl
    | ok d => exact @ih { d with notes := [] } rfl
  | drop _ ih =>
    obtain ⟨content, notes⟩ := d
    subst hd
    exact ih rfl

theorem Code.Trimmed.toSection_eq {file name : String} {code code' : Code} (h : code.Trimmed code')
    (more : Code) :
    toSection file comments name (code ++ more) = toSection file comments name (code' ++ more) := by
  rw [toSection, h.addAll_eq more rfl, toSection]

/-! ## Programs -/

namespace Context

variable {ctx : Context} {p : Resolved.Program} {s s' : State} {code : Code}

/-- The code of a statement ends with its end. -/
theorem exists_finish_of_stmt {st : Resolved.Stmt} (h : ctx.stmt st s = .ok code s') :
    ∃ first, code = first ++ [.finish] := by
  rw [← List.getLast?_eq_some_iff]
  cases lowers_of_stmt h with
  | define | assign | block => exact List.getLast?_concat ..
  | read | yield => rfl
  | _ =>
    rw [List.getLast?_append]
    rfl

/-- Without aliases, what only names something gives no code. -/
theorem item_inlined (haliases : ctx.options.emitAliases = false) {i : Resolved.Item}
    (h : ctx.item i s = .ok code s') (devices : DeviceTable) :
    i.inlined? = none ∧ code = [.finish] ∧ { s' with devices } = { s with devices } ∨
      ∃ i' first, i.inlined? = some i' ∧ code = first ++ [.finish] ∧
        ctx.inlined.item i' { s with devices } = .ok code { s' with devices } := by
  cases i with
  | nameSlot pos slotPos d =>
    simp only [item, haliases, Lower.bind_eq_ok, Lower.get_eq_ok, Lower.ofExcept_eq_ok,
      Lower.modify_eq_ok] at h
    obtain ⟨_, _, ⟨rfl, rfl⟩, _, _, ⟨-, rfl⟩, _, _, rfl, h⟩ := h
    obtain ⟨rfl, rfl⟩ := Lower.pure_eq_ok.1 h
    exact Or.inl ⟨rfl, rfl, rfl⟩
  | const c =>
    obtain ⟨rfl, rfl⟩ := Lower.pure_eq_ok.1 h
    exact Or.inl ⟨rfl, rfl, rfl⟩
  | func f =>
    obtain ⟨rfl, rfl⟩ := Lower.pure_eq_ok.1 h
    exact Or.inr ⟨.func f.inlined, [], rfl, rfl, rfl⟩
  | stmt st =>
    obtain ⟨first, rfl⟩ := exists_finish_of_stmt h
    refine Or.inr ⟨.stmt st.inlined, first, rfl, rfl, ?_⟩
    rw [item, stmt_inlined]
    exact ctx.mirroring.stmt st s s' _ devices h

theorem items_inlined (haliases : ctx.options.emitAliases = false) {is : List Resolved.Item}
    (h : ctx.items is s = .ok code s') (devices : DeviceTable) :
    ∃ code', ctx.inlined.items (is.filterMap Resolved.Item.inlined?) { s with devices } =
      .ok code' { s' with devices } ∧ code.Trimmed code' := by
  induction is generalizing s code with
  | nil =>
    obtain ⟨rfl, rfl⟩ := items_nil_eq_ok h
    exact ⟨[], rfl, .nil⟩
  | cons i is ih =>
    obtain ⟨code₁, s₁, code₂, hi, his, rfl⟩ := items_cons_eq_ok h
    obtain ⟨code₂', his', htrimmed⟩ := ih his
    rcases item_inlined haliases hi devices with ⟨hnone, rfl, hs₁⟩ | ⟨i', first, hsome, rfl, hi'⟩
    · rw [hs₁] at his'
      rw [List.filterMap_cons_none hnone]
      exact ⟨code₂', his', .drop htrimmed⟩
    · rw [List.filterMap_cons_some hsome, items]
      refine ⟨first ++ [.finish] ++ code₂', Lower.bind_eq_ok.2 ⟨_, _, hi', Lower.bind_eq_ok.2
        ⟨code₂', _, his', rfl⟩⟩, ?_⟩
      rw [List.append_assoc, List.append_assoc]
      exact .keep htrimmed

theorem sections_inlined (haliases : ctx.options.emitAliases = false) {ss : List Section}
    (h : ctx.sections p s = .ok ss s') (devices : DeviceTable) :
    ctx.inlined.sections p.inlined { s with devices } = .ok ss { s' with devices } := by
  unfold sections at h ⊢
  obtain ⟨code, s₁, hitems, h⟩ := Lower.bind_eq_ok.1 h
  obtain ⟨code', hitems', htrimmed⟩ := items_inlined haliases hitems devices
  refine Lower.bind_eq_ok.2 ⟨code', { s₁ with devices }, hitems', ?_⟩
  -- The code of the top level makes up the same section, and after it no names of slots are read.
  refine Lower.Mirrors.bind (.modify_state fun _ _ => rfl) (fun _ => ?_) s₁ s' ss devices h
  have hmain : Code.toSection ctx.file ctx.options.emitComments mainSection code =
      Code.toSection ctx.file ctx.options.emitComments mainSection code' := by
    simpa using htrimmed.toSection_eq []
  simp only [Resolved.Program.functions_inlined, List.isEmpty_map,
    Resolved.Program.functionOrder_inlined, Resolved.Program.callGraph_inlined, functions_inlined,
    inSourceOrder_inlined]
  by_cases hempty : p.functions.isEmpty = true
  · rw [if_pos hempty, if_pos hempty, hmain]
    exact (Lower.Mirrors.ofExcept _).bind fun _ => .pure _
  · rw [if_neg hempty, if_neg hempty, htrimmed.toSection_eq]
    exact (Lower.Mirrors.ofExcept _).bind fun _ => .get_bind fun _ _ =>
      (ctx.mirrors_functions p _ _ _).bind fun fs =>
        (ctx.mirroring.inSourceOrder fs _).bind fun _ => (Lower.Mirrors.ofExcept _).bind fun _ =>
          .pure _

end Context

end Lowering

/-- What is left of a program is lowered to the same, if names of slots give no lines. -/
theorem Resolved.Program.generate_inlined {file : String} {options : Options}
    (haliases : options.emitAliases = false) {p : Resolved.Program} {g : Generated}
    (h : (p.generate file options).2 = .ok g) : (p.inlined.generate file options).2 = .ok g := by
  cases hpool : RegisterPool.ofCount options.registerCount [] with
  | error e => simp [generate, hpool] at h
  | ok pool =>
    rw [generate_eq hpool] at h
    rw [generate_eq hpool]
    cases hsections : (⟨file, options, p⟩ : Lowering.Context).sections p { pool } with
    | error e s => simp [hsections] at h
    | ok ss s =>
      have hsections' :
          (⟨file, options, p.inlined⟩ : Lowering.Context).sections p.inlined { pool } =
            .ok ss { s with devices := {} } :=
        Context.sections_inlined haliases hsections {}
      rw [hsections] at h
      rw [hsections']
      exact h

end Chipwright
