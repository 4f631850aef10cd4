import Chipwright.Proofs.Linking
import Chipwright.Proofs.Lowering.Lines
import Chipwright.Proofs.Resolved.Yield

/-!
# The calls of lowered statements

Each call of a statement gives one line that calls, each `yield` one that yields, and these lines
stand in the order of the statements. What is noted of a call are the registers that are live there,
among them those of all variables that are visible.
-/
namespace Chipwright.Lowering

/-- What a line does that others come to know of: it calls a function, or it yields. -/
inductive Signal
  | call (f : String)
  | yield

namespace Signal

def ofLine? : Line → Option Signal
  | ⟨.jumpAndLink, [.label (.function f)], _⟩ => some (.call f)
  | ⟨.yield, _, _⟩ => some .yield
  | _ => none

def ofStmt? : Resolved.Stmt → Option Signal
  | .call _ f _ => some (.call f.name)
  | .yield _ => some .yield
  | _ => none

/-- The function that is called. -/
def callee? : Signal → Option String
  | call f => some f
  | yield => none

end Signal

/-- The function that a line calls. -/
def Line.callee? : Line → Option String
  | ⟨.jumpAndLink, [.label (.function f)], _⟩ => some f
  | _ => none

/-- The functions that code calls, line by line. -/
def Code.callees (code : Code) : List String := code.lines.filterMap Line.callee?

/-- What code signals, line by line. -/
def Code.signals (code : Code) : List Signal := code.lines.filterMap Signal.ofLine?

variable {ctx : Context} {table : Homes} {outer own : List Variable} {s₀ s₁ : State} {code : Code}

@[simp] theorem Code.signals_nil : Code.signals [] = [] := rfl

@[simp] theorem Code.signals_append (code₁ code₂ : Code) :
    Code.signals (code₁ ++ code₂) = code₁.signals ++ code₂.signals := by
  simp [Code.signals, Code.lines]

@[simp] theorem Code.signals_note (text : String) (code : Code) :
    Code.signals (.note text :: code) = code.signals := rfl

@[simp] theorem Code.signals_label (l : Label) (code : Code) :
    Code.signals (.label l :: code) = code.signals := rfl

@[simp] theorem Code.signals_finish (code : Code) :
    Code.signals (.finish :: code) = code.signals := rfl

@[simp] theorem Code.signals_line (origin : Origin) (opcode : Opcode) (operands : List Operand)
    (code : Code) : Code.signals (origin.line opcode operands :: code) =
      (Signal.ofLine? ⟨opcode, operands, origin⟩).toList ++ code.signals := by
  cases h : Signal.ofLine? ⟨opcode, operands, origin⟩ with
  | none => simp [Code.signals, Code.lines, Origin.line, h]
  | some f => simp [Code.signals, Code.lines, Origin.line, h]

theorem Code.callees_eq (code : Code) : code.callees = code.signals.filterMap Signal.callee? := by
  rw [Code.callees, Code.signals, List.filterMap_filterMap]
  congr 1
  funext l
  unfold Signal.ofLine?
  split <;> simp [Line.callee?, Signal.callee?]

theorem signals_of_computes {writable : Register → Prop}
    (h : ∀ piece ∈ code, ∃ l r, piece = .line l ∧ l.Computes r ∧ writable r) :
    Code.signals code = [] := by
  refine List.filterMap_eq_nil_iff.2 fun l hl => ?_
  obtain ⟨piece, hpiece, heq⟩ := List.mem_filterMap.1 hl
  obtain ⟨l', r, rfl, hcomputes, -⟩ := h piece hpiece
  cases heq
  cases hcomputes with
  | binary op r x y origin => cases op <;> rfl
  | not r x origin => rfl
  | move r x origin => rfl

@[simp] theorem signals_argumentMoves (origin : Origin) (f : String) (index : Int)
    (xs : List Value) : Code.signals (Context.argumentMoves origin f index xs) = [] := by
  induction xs generalizing index with
  | nil => rfl
  | cons x xs ih => exact ih (index + 1)

open Resolved.Stmt (parts)

section Signals

attribute [local simp] Resolved.Stmt.inner List.filterMap_cons Signal.ofStmt? Signal.ofLine?

mutual

theorem signals_of_lowers :
    ∀ (st : Resolved.Stmt) {s₀ s₁ : State} {code : Code}, ctx.Lowers st s₀ code s₁ →
      Code.signals code = (st :: st.inner).filterMap Signal.ofStmt?
  | .define .., _, _, _, .define _ _ hlower
  | .assign .., _, _, _, .assign _ _ hlower => by
    simp [signals_of_computes (ExprContext.computes_of_lowerInto hlower)]
  | .block body, _, _, _, .block hbody _ => by simp [signals_of_stmts body hbody]
  | .call .., _, _, _, .call _ _ hargs _ => by
    simp [signals_of_computes (ExprContext.computes_of_lowerAll hargs)]
  | .loop _ body, _, _, _, .loop hbody _ => by simp [signals_of_stmts body hbody]
  | .ifThen _ _ body, _, _, _, .ifThen _ hlower _ hbody _ => by
    simp [signals_of_computes (ExprContext.computes_of_lower hlower), signals_of_stmts body hbody]
  | .ifElse _ _ thenBody elseBody, _, _, _, .ifElse _ hlower _ hthen _ helse _ => by
    simp [signals_of_computes (ExprContext.computes_of_lower hlower),
      signals_of_stmts thenBody hthen, signals_of_stmts elseBody helse]
  | .read .., _, _, _, .read _ _ => rfl
  | .write .., _, _, _, .write _ hlower _ => by
    simp [signals_of_computes (ExprContext.computes_of_lower hlower)]
  | .yield _, _, _, _, .yield => rfl

/-- The code of statements signals their calls and their `yield`s, in their order. -/
theorem signals_of_stmts :
    ∀ (sts : List Resolved.Stmt) {s₀ s₁ : State} {code : Code}, ctx.stmts sts s₀ = .ok code s₁ →
      Code.signals code = (parts sts).filterMap Signal.ofStmt?
  | [], s₀, s₁, code, h => by
    obtain ⟨rfl, -⟩ := Context.stmts_nil_eq_ok h
    rfl
  | st :: sts, s₀, s₁, code, h => by
    obtain ⟨code₁, s, code₂, h₁, h₂, rfl⟩ := Context.stmts_cons_eq_ok h
    rw [Code.signals_append, signals_of_lowers st (Context.lowers_of_stmt h₁),
      signals_of_stmts sts h₂, ← List.filterMap_append]
    rfl

end

end Signals

/-- A line that yields comes from a `yield`. -/
theorem hasYield_of_line {sts : List Resolved.Stmt} (h : ctx.stmts sts s₀ = .ok code s₁) {l : Line}
    (hl : Piece.line l ∈ code) (hopcode : l.opcode = .yield) : Resolved.Stmt.HasYield sts := by
  obtain ⟨opcode, operands, origin⟩ := l
  obtain rfl : opcode = .yield := hopcode
  have hsignal : Signal.yield ∈ code.signals :=
    List.mem_filterMap.2 ⟨_, List.mem_filterMap.2 ⟨_, hl, rfl⟩, rfl⟩
  rw [signals_of_stmts sts h] at hsignal
  obtain ⟨st, hst, hyield⟩ := List.mem_filterMap.1 hsignal
  cases st <;> cases hyield
  exact ⟨_, hst⟩

theorem signals_of_items {is : List Resolved.Item} (h : ctx.items is s₀ = .ok code s₁) :
    Code.signals code =
      (parts (is.filterMap Resolved.Item.stmt?)).filterMap Signal.ofStmt? := by
  induction is generalizing s₀ code with
  | nil =>
    obtain ⟨rfl, -⟩ := Context.items_nil_eq_ok h
    rfl
  | cons i is ih =>
    obtain ⟨code₁, s, code₂, h₁, h₂, rfl⟩ := Context.items_cons_eq_ok h
    rw [Code.signals_append, ih h₂]
    rcases Context.item_eq_ok h₁ with ⟨st, rfl, hst⟩ | ⟨hnone, -, hcode⟩
    · rw [signals_of_lowers st (Context.lowers_of_stmt hst), ← List.filterMap_append]
      rfl
    · rw [List.filterMap_cons_none hnone]
      rcases hcode with rfl | ⟨origin, name, slot, rfl⟩ <;> rfl

/-- Code that signals what statements do calls what they call. -/
theorem callees_of_signals {sts : List Resolved.Stmt}
    (h : code.signals = (parts sts).filterMap Signal.ofStmt?) :
    code.callees = (Resolved.Stmt.callsAll none sts).map (·.callee) := by
  rw [Code.callees_eq, h, Resolved.Stmt.callsAll_eq, List.map_filterMap, List.filterMap_filterMap]
  congr 1
  funext st
  cases st <;> rfl

/-! ## What is noted -/

mutual

/-- For each call of a statement, the registers are noted of a pool in which all that is visible
is housed. -/
theorem housed_of_stmt :
    ∀ (st : Resolved.Stmt) {own : List Variable} {s₀ s₁ : State} {code : Code},
      Lowered ctx table outer own st s₀ code s₁ → ∀ site ∈ st.sites (own ++ outer),
        ∃ pool : RegisterPool, (site.callee, pool.live) ∈ s₁.liveAtCalls ∧
          Housed table site.visible pool
  | .block body, _, s₀, s₁, code, h => by
    obtain ⟨code₁, s, rs, pool, hbody, -, -, rfl⟩ := h.block
    have hsites := housed_of_stmts body hbody
    exact hsites
  | .call pos f args, _, s₀, s₁, code, h => by
    cases Context.lowers_of_stmt h.lowered with
    | call _ pool₁ hlower _ =>
      intro site hsite
      obtain rfl := List.mem_singleton.1 hsite
      have htakes := ExprContext.takes_of_lowerAll hlower
      exact ⟨pool₁, List.mem_append_right _ (List.mem_singleton.2 rfl),
        h.housed.of_live fun r hr => htakes.mem_live.2 (Or.inl hr)⟩
  | .loop pos body, _, s₀, s₁, code, h => by
    obtain ⟨memory, log, start, origin, code₁, s, rs, pool, hbody, -, -, rfl⟩ := h.loop
    have hsites := housed_of_stmts body hbody
    exact hsites
  | .ifThen pos e body, _, s₀, s₁, code, h => by
    obtain ⟨finish, origin, x, code₁, pool₁, pool₂, code₂, s, rs, pool₃, -, -, -, hbody, -, -,
      rfl⟩ := h.ifThen
    have hsites := housed_of_stmts body hbody
    exact hsites
  | .ifElse pos e thenBody elseBody, _, s₀, s₁, code, h => by
    obtain ⟨middle, finish, origin, origin', x, code₁, pool₁, pool₂, code₂, s, rs, pool₃, code₃, s',
      rs', pool₄, -, -, -, hthen, -, -, helse, -, -, rfl⟩ := h.ifElse
    intro site hsite
    rcases List.mem_append.1 hsite with hsite | hsite
    · obtain ⟨pool, hpool, hhoused⟩ := housed_of_stmts thenBody hthen site hsite
      exact ⟨pool, (Context.effect_of_stmts elseBody helse.lowered).mem_calls hpool, hhoused⟩
    · exact housed_of_stmts elseBody helse site hsite
  | .define .., _, _, _, _, _ | .assign .., _, _, _, _, _ | .read .., _, _, _, _, _
  | .write .., _, _, _, _, _ | .yield _, _, _, _, _, _ => fun _ hsite => by cases hsite

theorem housed_of_stmts :
    ∀ (sts : List Resolved.Stmt) {own : List Variable} {s₀ s₁ : State} {code : Code},
      LoweredAll ctx table outer own sts s₀ code s₁ →
      ∀ site ∈ Resolved.Stmt.sitesAll (own ++ outer) sts,
        ∃ pool : RegisterPool, (site.callee, pool.live) ∈ s₁.liveAtCalls ∧
          Housed table site.visible pool
  | [], _, _, _, _, _ => fun _ hsite => by cases hsite
  | st :: sts, own, s₀, s₁, code, h => by
    obtain ⟨code₁, s, code₂, h₁, h₂, rfl⟩ := h.cons
    intro site hsite
    rcases List.mem_append.1 hsite with hsite | hsite
    · obtain ⟨pool, hpool, hhoused⟩ := housed_of_stmt st h₁ site hsite
      exact ⟨pool, (Context.effect_of_stmts sts h₂.lowered).mem_calls hpool, hhoused⟩
    · rw [← List.append_assoc] at hsite
      exact housed_of_stmts sts h₂ site hsite

end

theorem housed_of_items {is : List Resolved.Item}
    (h : LoweredItems ctx table own is s₀ code s₁) :
    ∀ site ∈ Resolved.Stmt.sitesAll own (is.filterMap Resolved.Item.stmt?),
      ∃ pool : RegisterPool, (site.callee, pool.live) ∈ s₁.liveAtCalls ∧
        Housed table site.visible pool := by
  induction is generalizing own s₀ code with
  | nil =>
    intro site hsite
    cases hsite
  | cons i is ih =>
    obtain ⟨code₁, s, code₂, -, ⟨st, rfl, h₁, h₂⟩ | ⟨hnone, -, -, h₂⟩⟩ := h.cons
    · intro site hsite
      rcases List.mem_append.1 hsite with hsite | hsite
      · have hsite : site ∈ st.sites (own ++ []) := by simpa using hsite
        obtain ⟨pool, hpool, hhoused⟩ := housed_of_stmt st h₁ site hsite
        exact ⟨pool, (Context.effect_of_items h₂.lowered).mem_calls hpool, hhoused⟩
      · exact ih h₂ site hsite
    · rw [List.filterMap_cons_none hnone]
      exact ih h₂

theorem Line.Fits.callee?_isSome {writes : Register → Prop} {labels : Label → Prop}
    {calls : String → List Register → Prop} {l : Line} (h : l.Fits writes labels calls)
    (hl : l.opcode = .jumpAndLink) : l.callee?.isSome := by
  cases h with
  | call f kept origin hf => rfl
  | computes hcomputes hr =>
    cases hcomputes with
    | binary op r x y origin => cases op <;> cases hl
    | not r x origin => cases hl
    | move r x origin => cases hl
  | _ => cases hl

theorem Line.opcode_of_callee? {l : Line} {f : String} (h : l.callee? = some f) :
    l.opcode = .jumpAndLink ∧ l.operands = [.label (.function f)] := by
  unfold callee? at h
  split at h <;> cases h
  exact ⟨rfl, rfl⟩

end Chipwright.Lowering

namespace Chipwright

open Lowering (Code Line Piece)

/-- The lines that call, among a number of lines from a first one on. -/
def Linked.callLines (p : Linked) (first count : Nat) : List Nat :=
  (List.range' first count).filter fun n => p.instructions[n]?.any (·.opcode = .jumpAndLink)

theorem Linked.callLines_succ (p : Linked) (first count : Nat) :
    p.callLines first (count + 1) =
      (if p.instructions[first]?.any (·.opcode = .jumpAndLink) then [first] else []) ++
        p.callLines (first + 1) count := by
  simp only [callLines, List.range'_succ, List.filter_cons]
  split <;> rfl

/-- Where code stands, its lines that call are the calls of the code in their order. -/
theorem Image.Placed.callLines {image : Image} {n : Nat} {code : Code}
    (h : image.Placed n code)
    (hcode : ∀ l, Piece.line l ∈ code → l.opcode = .jumpAndLink → l.callee?.isSome) :
    List.Forall₂ (fun k f => ∃ l, image.HasLine k l ∧ l.callee? = some f)
      (image.linked.callLines n code.size) code.callees := by
  induction code generalizing n with
  | nil => exact .nil
  | cons piece code ih =>
    have hrest : ∀ l, Piece.line l ∈ code → l.opcode = .jumpAndLink → l.callee?.isSome :=
      fun l hl => hcode l (List.mem_cons_of_mem _ hl)
    cases piece with
    | label l => exact ih h.2 hrest
    | note text => exact ih h hrest
    | finish => exact ih h hrest
    | line l =>
      obtain ⟨hline, hplaced⟩ := h
      obtain ⟨i, hi, hopcode, -⟩ := id hline
      rw [Code.size_line, Linked.callLines_succ]
      cases hcallee : l.callee? with
      | none =>
        have hne : l.opcode ≠ .jumpAndLink := by
          intro heq
          have := hcode l (List.mem_cons_self ..) heq
          rw [hcallee] at this
          cases this
        have hcallees : Code.callees (.line l :: code) = Code.callees code := by
          simp [Code.callees, Code.lines, hcallee]
        have hnot : ¬ image.linked.instructions[n]?.any (·.opcode = .jumpAndLink) := by
          simp [hi, hopcode, hne]
        rw [hcallees, if_neg hnot]
        exact ih hplaced hrest
      | some f =>
        have hcallees : Code.callees (.line l :: code) = f :: Code.callees code := by
          simp [Code.callees, Code.lines, hcallee]
        have hcalls : image.linked.instructions[n]?.any (·.opcode = .jumpAndLink) := by
          simp [hi, hopcode, (Line.opcode_of_callee? hcallee).1]
        rw [hcallees, if_pos hcalls]
        exact .cons ⟨l, hline, hcallee⟩ (ih hplaced hrest)

end Chipwright
