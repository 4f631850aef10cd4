import Chipwright.Proofs.Lowering.Sections
import Chipwright.Proofs.Lowering.Visibility

/-!
# The operands of lowered lines

The operands of every line that lowering gives fit their places. Registers belong to variables
or were handed out, labels are placed in the same code or belong to functions that are called,
and parameters are those of such functions, one for each argument.

Loops and conditionals are numbered, so that no label is placed twice.
-/
namespace Chipwright

/-- What operands may refer to. -/
structure Symbols where
  registers : Register → Prop
  labels : Label → Prop
  parameters : String → Int → Prop

/-- An operand that a line may have at a place of a kind. Numbers are values only: a jump leads
to a label, or to where a register says. -/
inductive Operand.Suits (y : Symbols) : OperandKind → Operand → Prop
  | target {r : Register} : y.registers r → Suits y .register (.register r)
  | parameter {f : String} {index : Int} :
    y.parameters f index → Suits y .register (.parameter f index)
  | number (c : Literal) : Suits y .value (.number c)
  | register {r : Register} : y.registers r → Suits y .value (.register r)
  | device (slot : Slot) : Suits y .device (.device slot)
  | property (text : String) : Suits y .logicType (.name text)
  | name (text : String) : Suits y .name (.name text)
  | label {l : Label} : y.labels l → Suits y .line (.label l)
  | through {r : Register} : y.registers r → Suits y .line (.register r)

theorem Operand.Suits.accepts {y : Symbols} {kind : OperandKind} {x : Operand}
    (h : x.Suits y kind) : kind.accepts x = true := by
  cases h <;> rfl

theorem BinaryOp.operands_opcode (op : BinaryOp) :
    op.opcode.operands = [.register, .value, .value] := by
  cases op <;> rfl

/-- Every operand of an instruction suits its place. -/
def Instruction.Legal (y : Symbols) (i : Instruction) : Prop :=
  List.Forall₂ (fun kind x => x.Suits y kind) i.opcode.operands i.operands

namespace Lowering

/-- Every operand of a line suits its place. -/
def Line.Legal (y : Symbols) (l : Line) : Prop :=
  List.Forall₂ (fun kind x => x.Suits y kind) l.opcode.operands l.operands

variable {y : Symbols}

theorem Line.Legal.wellFormed {l : Line} (h : l.Legal y) : l.WellFormed :=
  ⟨h.length_eq.symm, fun _ hp => (List.forall₂_zip h hp).accepts⟩

namespace Code

variable {code : Code}

/-- All lines are legal. -/
def Legal (y : Symbols) (code : Code) : Prop := ∀ l, Piece.line l ∈ code → l.Legal y

@[simp] theorem legal_nil : Code.Legal y [] := by simp [Legal]

@[simp] theorem legal_append {code₁ code₂ : Code} :
    Code.Legal y (code₁ ++ code₂) ↔ code₁.Legal y ∧ code₂.Legal y := by
  simp only [Legal, List.mem_append, or_imp, forall_and]

@[simp] theorem legal_line {origin : Origin} {opcode : Opcode} {operands : List Operand} :
    Code.Legal y (origin.line opcode operands :: code) ↔
      Line.Legal y ⟨opcode, operands, origin⟩ ∧ code.Legal y := by
  simp [Legal, Origin.line]

@[simp] theorem legal_label {l : Label} : Code.Legal y (.label l :: code) ↔ code.Legal y := by
  simp [Legal]

@[simp] theorem legal_note {text : String} : Code.Legal y (.note text :: code) ↔ code.Legal y := by
  simp [Legal]

@[simp] theorem legal_finish : Code.Legal y (.finish :: code) ↔ code.Legal y := by
  simp [Legal]

end Code

/-! ### Expressions -/

namespace ExprContext

variable {ctx : ExprContext} {target : Option Register} {pool pool' : RegisterPool} {x : Value}
  {code : Code}

theorem register_of_result {d : Value} (h : ctx.result target pool = .ok (d, pool'))
    (htarget : ∀ r, target = some r → y.registers r) (hused : ∀ r ∈ pool'.used, y.registers r) :
    ∃ r, d.operand = .register r ∧ y.registers r := by
  rcases result_eq_ok h with ⟨r, hr, rfl, -⟩ | ⟨r, -, rfl, htakes⟩
  · exact ⟨r, rfl, htarget r hr⟩
  · exact ⟨r, rfl, hused r (htakes.taken r (List.mem_singleton.2 rfl))⟩

/-- Expressions use the registers of variables, the target, and what is handed out to them. -/
theorem legal_of_lower {e : Resolved.Expr} (h : ctx.lower e target pool = .ok (x, code, pool'))
    (hhomes : ∀ e ∈ ctx.homes, y.registers e.2) (htarget : ∀ r, target = some r → y.registers r)
    (hused : ∀ r ∈ pool'.used, y.registers r) : x.operand.Suits y .value ∧ code.Legal y := by
  replace h := lowers_of_lower h
  induction h with
  | literal | const => exact ⟨.number _, Code.legal_nil⟩
  | var _ hhome => exact ⟨.register (hhomes _ (mem_of_lookup hhome)), Code.legal_nil⟩
  | not z _ _ hrelease hresult _ ih =>
    obtain ⟨r, hd, hr⟩ := register_of_result hresult htarget hused
    have hused' := used_of_result hresult (Value.used_of_release hrelease)
    obtain ⟨hoperand, hcode⟩ := ih (by simp) fun r hr => hused r (hused' r hr)
    rw [hd]
    have hline : Line.Legal y ⟨.seqz, [.register r, z.operand], ctx.origin⟩ :=
      .cons (.target hr) (.cons hoperand .nil)
    exact ⟨.register hr, by simp [hcode, hline]⟩
  | @binary op _ _ _ _ _ _ _ _ _ _ _ w z _ _ hz hw' hz' hresult _ _ ihl ihr =>
    obtain ⟨r, hd, hr⟩ := register_of_result hresult htarget hused
    have hused' := fun r hr => hused r (used_of_result hresult
      ((Value.used_of_release hz').trans (Value.used_of_release hw')) r hr)
    obtain ⟨hleft, hcode₁⟩ := ihl (by simp) fun r hr => hused' r ((takes_of_lower hz).used r hr)
    obtain ⟨hright, hcode₂⟩ := ihr (by simp) hused'
    rw [hd]
    have hline : Line.Legal y ⟨op.opcode, [.register r, w.operand, z.operand], ctx.origin⟩ := by
      rw [Line.Legal, op.operands_opcode]
      exact .cons (.target hr) (.cons hleft (.cons hright .nil))
    exact ⟨.register hr, by simp [hcode₁, hcode₂, hline]⟩

theorem legal_of_lowerAll {es : List Resolved.Expr} {xs : List Value}
    (h : ctx.lowerAll es pool = .ok (xs, code, pool')) (hhomes : ∀ e ∈ ctx.homes, y.registers e.2)
    (hused : ∀ r ∈ pool'.used, y.registers r) :
    (∀ x ∈ xs, x.operand.Suits y .value) ∧ code.Legal y := by
  induction es generalizing pool xs code with
  | nil =>
    cases h
    simp
  | cons e es ih =>
    obtain ⟨x, code₁, pool₁, ys, code₂, hx, hys, rfl, rfl⟩ := lowerAll_cons_eq_ok h
    obtain ⟨hoperand, hcode₁⟩ := legal_of_lower hx hhomes (by simp) fun r hr =>
      hused r ((takes_of_lowerAll hys).used r hr)
    obtain ⟨hoperands, hcode₂⟩ := ih hys
    exact ⟨List.forall_mem_cons.2 ⟨hoperand, hoperands⟩, Code.legal_append.2 ⟨hcode₁, hcode₂⟩⟩

theorem length_of_lowerAll {es : List Resolved.Expr} {xs : List Value}
    (h : ctx.lowerAll es pool = .ok (xs, code, pool')) : xs.length = es.length := by
  induction es generalizing pool xs code with
  | nil =>
    cases h
    rfl
  | cons e es ih =>
    obtain ⟨x, code₁, pool₁, ys, code₂, -, hys, rfl, -⟩ := lowerAll_cons_eq_ok h
    simp [ih hys]

theorem legal_of_lowerInto {e : Resolved.Expr} {r : Register}
    (h : ctx.lowerInto e r pool = .ok (code, pool')) (hhomes : ∀ e ∈ ctx.homes, y.registers e.2)
    (hr : y.registers r) (hused : ∀ r ∈ pool'.used, y.registers r) : code.Legal y := by
  obtain ⟨x, code₁, hx, hcode⟩ := lowerInto_eq_ok h
  have htarget : ∀ r', some r = some r' → y.registers r' := by
    rintro _ heq
    cases heq
    exact hr
  obtain ⟨hoperand, hcode₁⟩ := legal_of_lower hx hhomes htarget hused
  rcases hcode with ⟨-, rfl⟩ | ⟨-, rfl⟩
  · exact hcode₁
  · have hline : Line.Legal y ⟨.move, [.register r, x.operand], ctx.origin⟩ :=
      .cons (.target hr) (.cons hoperand .nil)
    simp [hcode₁, hline]

end ExprContext

theorem legal_argumentMoves {origin : Origin} {f : String} {index : Int} {xs : List Value}
    (hparameters : ∀ i : Nat, i < xs.length → y.parameters f (index + i))
    (hxs : ∀ x ∈ xs, x.operand.Suits y .value) :
    Code.Legal y (Context.argumentMoves origin f index xs) := by
  induction xs generalizing index with
  | nil => exact Code.legal_nil
  | cons x xs ih =>
    obtain ⟨hx, hxs⟩ := List.forall_mem_cons.1 hxs
    have hfirst : y.parameters f index := by simpa using hparameters 0 (by simp)
    refine Code.legal_line.2 ⟨.cons (.parameter hfirst) (.cons hx .nil), ih (fun i hi => ?_) hxs⟩
    have h := hparameters (i + 1) (by simpa using hi)
    rwa [Int.natCast_succ, Int.add_comm i, ← Int.add_assoc] at h

/-! ### Statements -/

/-- The symbols are enough for code that ends in a state, places labels and makes calls. -/
structure Provides (y : Symbols) (s : State) (labels : List Label)
    (calls : List (FunctionHead × Nat)) : Prop where
  homes : ∀ e ∈ s.homes, y.registers e.2
  used : ∀ r ∈ s.pool.used, y.registers r
  labels : ∀ l ∈ labels, y.labels l
  calls : ∀ call ∈ calls, y.labels (.function call.1.name) ∧
    ∀ i : Nat, i < call.2 → y.parameters call.1.name i

namespace Provides

variable {s s' : State} {labels labels' : List Label} {calls calls' : List (FunctionHead × Nat)}

theorem subset (h : Provides y s labels calls) (hlabels : labels' ⊆ labels)
    (hcalls : calls' ⊆ calls) : Provides y s labels' calls' :=
  ⟨h.homes, h.used, fun l hl => h.labels l (hlabels hl),
    fun call hcall => h.calls call (hcalls hcall)⟩

/-- What is enough after a step is enough before it. -/
theorem before {defines binds : List Variable} {callees : List String}
    (h : Provides y s' labels calls) (heffect : Effect s defines binds callees s') :
    Provides y s labels calls :=
  ⟨fun e he => h.homes e (heffect.mem_homes he), fun r hr => h.used r (heffect.mem_used hr),
    h.labels, h.calls⟩

theorem unpushed {pool : RegisterPool}
    (h : Provides y { s with pool := pool.push } labels calls) :
    Provides y { s with pool } labels calls :=
  ⟨h.homes, h.used, h.labels, h.calls⟩

/-- A frame that is closed takes no register away from what was used. -/
theorem inner {pool : RegisterPool} {rs : List Register}
    (h : Provides y { s with pool } labels calls) (hpop : s.pool.pop = .ok (rs, pool)) :
    Provides y s labels calls :=
  ⟨h.homes, fun r hr => h.used r (RegisterPool.used_of_pop hpop ▸ hr), h.labels, h.calls⟩

end Provides

namespace Context

variable {ctx : Context}

mutual

theorem legal_of_lowers :
    ∀ (st : Resolved.Stmt) {s s' : State} {code : Code}, ctx.Lowers st s code s' →
      Provides y s' code.labels st.invocations → code.Legal y
  | .define .., _, _, _, .define _ _ hlower, hy => by
    have hr := hy.homes _ (List.mem_cons_self ..)
    simpa using ExprContext.legal_of_lowerInto hlower hy.homes hr hy.used
  | .assign .., _, _, _, .assign _ hhome hlower, hy => by
    have hr := hy.homes _ (mem_of_lookup hhome)
    simpa using ExprContext.legal_of_lowerInto hlower hy.homes hr hy.used
  | .block body, _, _, _, .block hbody hpop, hy => by
    simpa using legal_of_stmts body hbody ((hy.inner hpop).subset (by simp) fun _ h => h)
  | .call _ f args, _, _, _, .call xs _ hargs hrelease, hy => by
    obtain ⟨hlabel, hparameters⟩ := hy.calls (f, args.length) (List.mem_singleton.2 rfl)
    obtain ⟨hxs, hcode⟩ := ExprContext.legal_of_lowerAll hargs hy.homes fun r hr =>
      hy.used r (Value.used_of_releaseAll hrelease ▸ hr)
    have hmoves origin : Code.Legal y (argumentMoves origin f.name 0 xs) := by
      refine legal_argumentMoves (fun i hi => ?_) hxs
      rw [Int.zero_add]
      exact hparameters i (ExprContext.length_of_lowerAll hargs ▸ hi)
    have hline origin : Line.Legal y ⟨.jumpAndLink, [.label (.function f.name)], origin⟩ :=
      .cons (.label hlabel) .nil
    simp [hcode, hmoves, hline]
  | .loop _ body, s, _, _, .loop hbody hpop, hy => by
    have hcode := legal_of_stmts body hbody ((hy.inner hpop).subset (by simp) fun _ h => h)
    have hline origin : Line.Legal y ⟨.jump, [.label (.loop s.loops)], origin⟩ :=
      .cons (.label (hy.labels _ (by simp))) .nil
    simp [hcode, hline]
  | .ifThen _ _ body, s, _, _, .ifThen x hlower hrelease hbody hpop, hy => by
    have hy₂ := hy.inner hpop
    have hy₁ := hy₂.before (effect_of_stmts body hbody)
    obtain ⟨hx, hcode⟩ := ExprContext.legal_of_lower hlower hy₁.homes (by simp) fun r hr =>
      hy₁.used r (Value.used_of_release hrelease ▸ hr)
    have hline origin :
        Line.Legal y ⟨.branchZero, [x.operand, .label (.ifEnd s.conditionals)], origin⟩ :=
      .cons hx (.cons (.label (hy.labels _ (by simp))) .nil)
    have hcode₁ := legal_of_stmts body hbody (hy₂.subset (by simp) fun _ h => h)
    simp [hcode, hcode₁, hline]
  | .ifElse _ _ thenBody elseBody, s, _, _, .ifElse x hlower hrelease hthen hpop helse hpop',
      hy => by
    have hy₃ := hy.inner hpop'
    have hy₂ := (hy₃.before (effect_of_stmts elseBody helse)).unpushed.inner hpop
    have hy₁ := hy₂.before (effect_of_stmts thenBody hthen)
    obtain ⟨hx, hcode⟩ := ExprContext.legal_of_lower hlower hy₁.homes (by simp) fun r hr =>
      hy₁.used r (Value.used_of_release hrelease ▸ hr)
    have hbranch origin :
        Line.Legal y ⟨.branchZero, [x.operand, .label (.ifElse s.conditionals)], origin⟩ :=
      .cons hx (.cons (.label (hy.labels _ (by simp))) .nil)
    have hjump origin : Line.Legal y ⟨.jump, [.label (.ifEnd s.conditionals)], origin⟩ :=
      .cons (.label (hy.labels _ (by simp))) .nil
    have hcode₁ := legal_of_stmts thenBody hthen
      (hy₂.subset (by simp) fun _ h => List.mem_append_left _ h)
    have hcode₂ := legal_of_stmts elseBody helse
      (hy₃.subset (fun l hl => by simp [hl]) fun _ h => List.mem_append_right _ h)
    simp [hcode, hcode₁, hcode₂, hbranch, hjump]
  | .read _ device property _ _, _, _, _, .read r hhome, hy => by
    have hline origin : Line.Legal y
        ⟨.load, [.register r, .device device.slot, .name property], origin⟩ :=
      .cons (.target (hy.homes _ (mem_of_lookup hhome)))
        (.cons (.device _) (.cons (.property _) .nil))
    simp [hline]
  | .write _ _ device property, _, _, _, .write x hlower hrelease, hy => by
    obtain ⟨hx, hcode⟩ := ExprContext.legal_of_lower hlower hy.homes (by simp) fun r hr =>
      hy.used r (Value.used_of_release hrelease ▸ hr)
    have hline origin : Line.Legal y
        ⟨.store, [.device device.slot, .name property, x.operand], origin⟩ :=
      .cons (.device _) (.cons (.property _) (.cons hx .nil))
    simp [hcode, hline]
  | .yield _, _, _, _, .yield, _ => by
    have hline origin : Line.Legal y ⟨.yield, [], origin⟩ := .nil
    simp [hline]

/-- Statements are lowered to legal lines. -/
theorem legal_of_stmts :
    ∀ (sts : List Resolved.Stmt) {s s' : State} {code : Code}, ctx.stmts sts s = .ok code s' →
      Provides y s' code.labels (Resolved.Stmt.invocationsAll sts) → code.Legal y
  | [], s, s', code, h, hy => by
    obtain ⟨rfl, -⟩ := stmts_nil_eq_ok h
    exact Code.legal_nil
  | st :: sts, s, s', code, h, hy => by
    obtain ⟨code₁, s₁, code₂, h₁, h₂, rfl⟩ := stmts_cons_eq_ok h
    have hy₁ : Provides y s₁ (Code.labels code₁) st.invocations :=
      (hy.before (effect_of_stmts sts h₂)).subset (by simp) fun _ h => List.mem_append_left _ h
    have hy₂ : Provides y s' (Code.labels code₂) (Resolved.Stmt.invocationsAll sts) :=
      hy.subset (by simp) fun _ h => List.mem_append_right _ h
    exact Code.legal_append.2
      ⟨legal_of_lowers st (lowers_of_stmt h₁) hy₁, legal_of_stmts sts h₂ hy₂⟩

end

/-- The top level is lowered to legal lines. -/
theorem legal_of_items {is : List Resolved.Item} {s s' : State} {code : Code}
    (h : ctx.items is s = .ok code s')
    (hy : Provides y s' code.labels (is.flatMap Resolved.Item.invocations)) : code.Legal y := by
  induction is generalizing s code with
  | nil =>
    obtain ⟨rfl, -⟩ := items_nil_eq_ok h
    exact Code.legal_nil
  | cons i is ih =>
    obtain ⟨code₁, s₁, code₂, h₁, h₂, rfl⟩ := items_cons_eq_ok h
    have hy₁ : Provides y s₁ (Code.labels code₁) i.invocations :=
      (hy.before (effect_of_items h₂)).subset (by simp) fun _ h => List.mem_append_left _ h
    have hy₂ : Provides y s' (Code.labels code₂) (is.flatMap Resolved.Item.invocations) :=
      hy.subset (by simp) fun _ h => List.mem_append_right _ h
    refine Code.legal_append.2 ⟨?_, ih h₂ hy₂⟩
    rcases item_eq_ok h₁ with ⟨st, rfl, hst⟩ | ⟨-, -, rfl | ⟨origin, name, slot, rfl⟩⟩
    · exact legal_of_lowers st (lowers_of_stmt hst) hy₁
    · simp
    · have hline : Line.Legal y ⟨.nameDevice, [.name name, .device slot], origin⟩ :=
        .cons (.name _) (.cons (.device _) .nil)
      simp [hline]

end Context

/-! ### Labels -/

/-- How many loops and conditionals have been numbered. -/
structure Counters where
  loops : Nat
  conditionals : Nat

abbrev State.counters (s : State) : Counters := ⟨s.loops, s.conditionals⟩

/-- A label has a number that was given out between two counts. -/
def Counters.Between (c c' : Counters) : Label → Prop
  | .loop n => c.loops ≤ n ∧ n < c'.loops
  | .ifElse n => c.conditionals ≤ n ∧ n < c'.conditionals
  | .ifEnd n => c.conditionals ≤ n ∧ n < c'.conditionals
  | _ => False

/-- Labels that are placed once each, with numbers that were given out between two counts. -/
structure Numbered (c c' : Counters) (labels : List Label) : Prop where
  loops : c.loops ≤ c'.loops
  conditionals : c.conditionals ≤ c'.conditionals
  nodup : labels.Nodup
  between : ∀ l ∈ labels, c.Between c' l

namespace Numbered

variable {c c₁ c' : Counters} {labels labels' : List Label}

theorem refl (c : Counters) : Numbered c c [] :=
  ⟨Nat.le_refl _, Nat.le_refl _, List.nodup_nil, by simp⟩

theorem append (h : Numbered c c₁ labels) (h' : Numbered c₁ c' labels') :
    Numbered c c' (labels ++ labels') := by
  have hloops := h.loops
  have hloops' := h'.loops
  have hconditionals := h.conditionals
  have hconditionals' := h'.conditionals
  refine ⟨by omega, by omega, List.nodup_append'.2 ⟨h.nodup, h'.nodup, fun l hl hl' => ?_⟩,
    fun l hl => ?_⟩
  · have hbefore := h.between l hl
    have hafter := h'.between l hl'
    cases l <;> simp only [Counters.Between] at hbefore hafter <;> omega
  · rcases List.mem_append.1 hl with hl | hl
    · have hbefore := h.between l hl
      cases l <;> simp only [Counters.Between] at hbefore ⊢ <;> omega
    · have hafter := h'.between l hl
      cases l <;> simp only [Counters.Between] at hafter ⊢ <;> omega

theorem perm (h : Numbered c c' labels) (hperm : labels.Perm labels') : Numbered c c' labels' :=
  ⟨h.loops, h.conditionals, hperm.nodup_iff.1 h.nodup, fun l hl =>
    h.between l (hperm.mem_iff.2 hl)⟩

theorem loop (c : Counters) : Numbered c ⟨c.loops + 1, c.conditionals⟩ [.loop c.loops] :=
  ⟨Nat.le_succ _, Nat.le_refl _, List.nodup_singleton _, by simp [Counters.Between]⟩

theorem ifThen (c : Counters) :
    Numbered c ⟨c.loops, c.conditionals + 1⟩ [.ifEnd c.conditionals] :=
  ⟨Nat.le_refl _, Nat.le_succ _, List.nodup_singleton _, by simp [Counters.Between]⟩

theorem ifElse (c : Counters) :
    Numbered c ⟨c.loops, c.conditionals + 1⟩ [.ifElse c.conditionals, .ifEnd c.conditionals] :=
  ⟨Nat.le_refl _, Nat.le_succ _, by simp, by simp [Counters.Between]⟩

end Numbered

/-- Code of expressions places no labels. -/
theorem labels_of_computes {writable : Register → Prop} {code : Code}
    (h : ∀ piece ∈ code, ∃ l r, piece = .line l ∧ l.Computes r ∧ writable r) :
    code.labels = [] := by
  refine List.filterMap_eq_nil_iff.2 fun piece hpiece => ?_
  obtain ⟨l, r, rfl, -⟩ := h piece hpiece
  rfl

@[simp] theorem labels_argumentMoves (origin : Origin) (f : String) (index : Int)
    (xs : List Value) : Code.labels (Context.argumentMoves origin f index xs) = [] := by
  induction xs generalizing index with
  | nil => rfl
  | cons x xs ih => exact ih (index + 1)

namespace Context

variable {ctx : Context}

mutual

theorem numbered_of_lowers :
    ∀ (st : Resolved.Stmt) {s s' : State} {code : Code}, ctx.Lowers st s code s' →
      Numbered s.counters s'.counters code.labels
  | .define .., s, _, _, .define _ _ hlower
  | .assign .., s, _, _, .assign _ _ hlower => by
    have hlabels := labels_of_computes (ExprContext.computes_of_lowerInto hlower)
    simpa [hlabels] using Numbered.refl s.counters
  | .block body, _, _, _, .block hbody _ => by
    simpa using numbered_of_stmts body hbody
  | .call .., s, _, _, .call _ _ hargs _ => by
    have hlabels := labels_of_computes (ExprContext.computes_of_lowerAll hargs)
    simpa [hlabels] using Numbered.refl s.counters
  | .loop _ body, s, _, _, .loop hbody _ => by
    simpa using (Numbered.loop s.counters).append (numbered_of_stmts body hbody)
  | .ifThen _ _ body, s, _, _, .ifThen _ hlower _ hbody _ => by
    have hlabels := labels_of_computes (ExprContext.computes_of_lower hlower)
    have hall := (Numbered.ifThen s.counters).append (numbered_of_stmts body hbody)
    simpa [hlabels] using hall.perm List.perm_append_comm
  | .ifElse _ _ thenBody elseBody, s, _, _, .ifElse _ hlower _ hthen _ helse _ => by
    have hlabels := labels_of_computes (ExprContext.computes_of_lower hlower)
    have helse := numbered_of_stmts elseBody helse
    have hbodies := (numbered_of_stmts thenBody hthen).append helse
    -- the labels of the conditional stand after its bodies, one each
    have hperm (ls ls' : List Label) :
        ([Label.ifElse s.conditionals, .ifEnd s.conditionals] ++ (ls ++ ls')).Perm
          (ls ++ Label.ifElse s.conditionals :: (ls' ++ [.ifEnd s.conditionals])) := by
      refine (List.Perm.cons _ ?_).trans List.perm_middle.symm
      rw [← List.append_assoc]
      exact List.perm_append_comm
    simpa [hlabels] using ((Numbered.ifElse s.counters).append hbodies).perm (hperm _ _)
  | .read .., _, _, _, .read _ _ => .refl _
  | .write .., s, _, _, .write _ hlower _ => by
    have hlabels := labels_of_computes (ExprContext.computes_of_lower hlower)
    simpa [hlabels] using Numbered.refl s.counters
  | .yield _, _, _, _, .yield => .refl _

/-- Statements place labels with new numbers. -/
theorem numbered_of_stmts :
    ∀ (sts : List Resolved.Stmt) {s s' : State} {code : Code}, ctx.stmts sts s = .ok code s' →
      Numbered s.counters s'.counters code.labels
  | [], s, s', code, h => by
    obtain ⟨rfl, rfl⟩ := stmts_nil_eq_ok h
    exact .refl _
  | st :: sts, s, s', code, h => by
    obtain ⟨code₁, s₁, code₂, h₁, h₂, rfl⟩ := stmts_cons_eq_ok h
    rw [Code.labels_append]
    exact (numbered_of_lowers st (lowers_of_stmt h₁)).append (numbered_of_stmts sts h₂)

end

/-- The top level places labels with new numbers. -/
theorem numbered_of_items {is : List Resolved.Item} {s s' : State} {code : Code}
    (h : ctx.items is s = .ok code s') : Numbered s.counters s'.counters code.labels := by
  induction is generalizing s code with
  | nil =>
    obtain ⟨rfl, rfl⟩ := items_nil_eq_ok h
    exact .refl _
  | cons i is ih =>
    obtain ⟨code₁, s₁, code₂, h₁, h₂, rfl⟩ := items_cons_eq_ok h
    rw [Code.labels_append]
    refine Numbered.append ?_ (ih h₂)
    rcases item_eq_ok h₁ with ⟨st, rfl, hst⟩ | ⟨-, ⟨devices, rfl⟩, rfl | ⟨origin, name, slot, rfl⟩⟩
    · exact numbered_of_lowers st (lowers_of_stmt hst)
    · exact .refl s.counters
    · exact .refl s.counters

end Context

end Lowering

end Chipwright
