import Chipwright.Proofs.Annotation.Rendering
import Chipwright.Proofs.Lexing.Leading
import Chipwright.Proofs.Linking
import Chipwright.Proofs.Lowering.Expression
import Chipwright.Proofs.Parsing.Program
import Chipwright.Proofs.Resolved.Words
import Chipwright.Proofs.Stages

/-!
# What code shows of the source

The lines of statements never name a device. The words in them are words of the statements: a name
is that of a property, and a value stands in an expression. The remarks in code are made of names
and fixed words.
-/
namespace Chipwright.Lowering

/-- A piece of the code of statements. Words in it have a property. -/
inductive Piece.Shows (P : Word → Prop) : Piece → Prop
  | line {l : Line} (notAlias : l.opcode ≠ .nameDevice) (operands : ∀ x ∈ l.operands, x.Says P) :
    Shows P (.line l)
  | label (l : Label) : Shows P (.label l)
  | note {text : String} (plain : (∀ w, P w → w.Solid) → Text.Plain text.toList) :
    Shows P (.note text)
  | finish : Shows P .finish

/-- Words in all pieces have a property. -/
def Code.Shows (P : Word → Prop) (code : Code) : Prop := ∀ piece ∈ code, piece.Shows P

variable {P : Word → Prop} {code code' : Code}

namespace Code

@[simp] theorem shows_nil : Code.Shows P [] := List.forall_mem_nil _

@[simp] theorem shows_append : Code.Shows P (code ++ code') ↔ code.Shows P ∧ code'.Shows P :=
  List.forall_mem_append

@[simp] theorem shows_cons {piece : Piece} :
    Code.Shows P (piece :: code) ↔ piece.Shows P ∧ code.Shows P :=
  List.forall_mem_cons

end Code

@[simp] theorem shows_label (l : Label) : (Piece.label l).Shows P := .label l

@[simp] theorem shows_finish : Piece.finish.Shows P := .finish

/-- A line shows the words of its operands. -/
@[simp] theorem shows_line {origin : Origin} {opcode : Opcode} {operands : List Operand} :
    (origin.line opcode operands).Shows P ↔
      opcode ≠ .nameDevice ∧ ∀ x ∈ operands, x.Says P :=
  ⟨fun | .line hopcode hoperands => ⟨hopcode, hoperands⟩, fun h => .line h.1 h.2⟩

/-! ## Expressions -/

namespace ExprContext

variable {ctx : ExprContext} {target : Option Register} {pool pool' : RegisterPool}

theorem says_of_result {x : Value} (h : ctx.result target pool = .ok (x, pool')) :
    x.operand.Says P := by
  rcases result_eq_ok h with ⟨r, -, rfl, -⟩ | ⟨r, -, rfl, -⟩ <;> trivial

theorem shows_lower {e : Resolved.Expr} (he : ∀ w ∈ e.words, P w) {x : Value}
    (h : ctx.lower e target pool = .ok (x, code, pool')) : x.operand.Says P ∧ code.Shows P := by
  replace h := lowers_of_lower h
  induction h with
  | literal | const =>
    have hc := List.forall_mem_singleton.1 he
    exact ⟨hc, Code.shows_nil⟩
  | var => exact ⟨trivial, Code.shows_nil⟩
  | not _ _ _ _ hresult _ ih =>
    obtain ⟨hy, hcode⟩ := ih he
    have hx := says_of_result hresult (P := P)
    exact ⟨hx, by simp [hcode, hx, hy]⟩
  | @binary op _ _ _ _ _ _ _ _ _ _ _ _ _ _ _ _ _ _ hresult _ _ ihl ihr =>
    obtain ⟨hleft, hright⟩ := List.forall_mem_append.1 he
    obtain ⟨hy, hcode₁⟩ := ihl hleft
    obtain ⟨hz, hcode₂⟩ := ihr hright
    have hx := says_of_result hresult (P := P)
    have hopcode : op.opcode ≠ .nameDevice := by cases op <;> nofun
    exact ⟨hx, by simp [hcode₁, hcode₂, hx, hy, hz, hopcode]⟩

theorem shows_lowerAll {es : List Resolved.Expr} (hes : ∀ w ∈ es.flatMap Resolved.Expr.words, P w)
    {xs : List Value} (h : ctx.lowerAll es pool = .ok (xs, code, pool')) :
    (∀ x ∈ xs, x.operand.Says P) ∧ code.Shows P := by
  induction es generalizing pool xs code with
  | nil =>
    cases h
    exact ⟨List.forall_mem_nil _, Code.shows_nil⟩
  | cons e es ih =>
    obtain ⟨x, code₁, pool₁, ys, code₂, hx, hys, rfl, rfl⟩ := lowerAll_cons_eq_ok h
    obtain ⟨he, hes⟩ := List.forall_mem_append.1 hes
    obtain ⟨hx, hcode₁⟩ := shows_lower he hx
    obtain ⟨hys, hcode₂⟩ := ih hes hys
    exact ⟨List.forall_mem_cons.2 ⟨hx, hys⟩, Code.shows_append.2 ⟨hcode₁, hcode₂⟩⟩

theorem shows_lowerInto {e : Resolved.Expr} (he : ∀ w ∈ e.words, P w) {r : Register}
    (h : ctx.lowerInto e r pool = .ok (code, pool')) : code.Shows P := by
  obtain ⟨x, code₁, hx, ⟨-, rfl⟩ | ⟨-, rfl⟩⟩ := lowerInto_eq_ok h
  · exact (shows_lower he hx).2
  · obtain ⟨hx, hcode₁⟩ := shows_lower he hx
    simp [hcode₁, hx]

end ExprContext

/-! ## Steps -/

/-- What a step gives, if it succeeds, has a property. -/
def Lower.Gives {α : Type} (x : Lower α) (Q : α → Prop) : Prop :=
  ∀ s a s', x s = .ok a s' → Q a

namespace Lower.Gives

variable {α β : Type} {x : Lower α} {Q : α → Prop} {R : β → Prop}

theorem bind {f : α → Lower β} (hx : x.Gives Q) (hf : ∀ a, Q a → (f a).Gives R) :
    (x >>= f).Gives R := by
  intro s b s' h
  obtain ⟨a, s₁, ha, hb⟩ := Lower.bind_eq_ok.1 h
  exact hf a (hx s a s₁ ha) s₁ b s' hb

/-- After a step whatever it gives. -/
theorem andThen {f : α → Lower β} (hf : ∀ a, (f a).Gives R) : (x >>= f).Gives R :=
  bind (Q := fun _ => True) (fun _ _ _ _ => trivial) fun a _ => hf a

theorem pure {a : α} (h : Q a) : (Pure.pure a : Lower α).Gives Q := by
  intro s b s' heq
  obtain ⟨rfl, -⟩ := Lower.pure_eq_ok.1 heq
  exact h

theorem ofExcept {y : Except Failure α} (h : ∀ a, y = .ok a → Q a) :
    (Lower.ofExcept y).Gives Q :=
  fun _ a _ heq => h a (Lower.ofExcept_eq_ok.1 heq).1

theorem throw {e : Failure} : (MonadExcept.throw e : Lower α).Gives Q :=
  fun _ _ _ heq => (Lower.throw_eq_ok.1 heq).elim

theorem framed (hx : x.Gives Q) : (Lower.framed x).Gives Q := by
  intro s a s' h
  obtain ⟨s₁, _, _, hstep, -, -⟩ := Lower.framed_eq_ok.1 h
  exact hx _ a s₁ hstep

end Lower.Gives

namespace Context

variable {ctx : Context}

theorem shows_expr (origin : Origin) {e : Resolved.Expr} (he : ∀ w ∈ e.words, P w) :
    (ctx.expr origin e).Gives fun r => r.1.operand.Says P ∧ r.2.Shows P := by
  rintro s ⟨x, code⟩ s' h
  obtain ⟨pool, hlower, -⟩ := expr_eq_ok h
  exact ExprContext.shows_lower he hlower

theorem shows_exprs (origin : Origin) {es : List Resolved.Expr}
    (hes : ∀ w ∈ es.flatMap Resolved.Expr.words, P w) :
    (ctx.exprs origin es).Gives fun r => (∀ x ∈ r.1, x.operand.Says P) ∧ r.2.Shows P := by
  rintro s ⟨xs, code⟩ s' h
  obtain ⟨pool, hlower, -⟩ := exprs_eq_ok h
  exact ExprContext.shows_lowerAll hes hlower

theorem shows_exprInto (origin : Origin) {e : Resolved.Expr} (he : ∀ w ∈ e.words, P w)
    (r : Register) : (ctx.exprInto origin e r).Gives (Code.Shows P) := by
  intro s code s' h
  obtain ⟨pool, hlower, -⟩ := exprInto_eq_ok h
  exact ExprContext.shows_lowerInto he hlower

theorem shows_argumentMoves (origin : Origin) (f : String) (index : Int) {xs : List Value}
    (hxs : ∀ x ∈ xs, x.operand.Says P) : (argumentMoves origin f index xs).Shows P := by
  induction xs generalizing index with
  | nil => exact Code.shows_nil
  | cons x xs ih =>
    obtain ⟨hx, hxs⟩ := List.forall_mem_cons.1 hxs
    refine Code.shows_cons.2 ⟨shows_line.2 ⟨nofun, ?_⟩, ih (index + 1) hxs⟩
    exact List.forall_mem_cons.2 ⟨trivial, List.forall_mem_singleton.2 hx⟩

/-- A remark that ends with a name. -/
theorem shows_note {before text : String} (hbefore : Text.Plain before.toList)
    (htext : P (.name text)) : (Piece.note (before ++ text)).Shows P :=
  .note fun hP => Text.plain_append_toList.2 ⟨hbefore, (hP _ htext).plain⟩

/-- A remark on a property of a device. -/
theorem shows_note_place {before property : String} (slot : Slot)
    (hbefore : Text.Plain before.toList) (hproperty : P (.name property)) :
    (Piece.note (before ++ (slot.name ++ "." ++ property))).Shows P :=
  .note fun hP => Text.plain_append_toList.2 ⟨hbefore, Text.plain_append_toList.2
    ⟨Text.plain_append_toList.2 ⟨slot.solid_name.plain, by decide⟩, (hP _ hproperty).plain⟩⟩

theorem shows_word {text : String} (h : Text.Plain text.toList) : (Piece.note text).Shows P :=
  .note fun _ => h

mutual

theorem shows_stmt : ∀ st : Resolved.Stmt, (∀ w ∈ st.words, P w) →
    (ctx.stmt st).Gives (Code.Shows P)
  | .define pos v e, hst => by
    rw [stmt]
    obtain ⟨hv, he⟩ := List.forall_mem_cons.1 hst
    refine .andThen fun r => (shows_exprInto _ he r).bind fun code hcode => .pure ?_
    have hnote : (Piece.note s!"let {v.name}").Shows P := shows_note (by decide) hv
    simpa [hcode] using hnote
  | .assign pos v e, hst => by
    rw [stmt]
    obtain ⟨hv, he⟩ := List.forall_mem_cons.1 hst
    refine .andThen fun r => (shows_exprInto _ he r).bind fun code hcode => .pure ?_
    have hnote : (Piece.note s!"{v.name} = ...").Shows P :=
      .note fun hP => Text.plain_append_toList.2 ⟨(hP _ hv).plain, by decide⟩
    simpa [hcode] using hnote
  | .block body, hst => by
    rw [stmt]
    refine (shows_stmts body hst).framed.bind fun code hcode => .pure ?_
    simpa using hcode
  | .call pos f args, hst => by
    rw [stmt]
    obtain ⟨hf, hargs⟩ := List.forall_mem_cons.1 hst
    refine Lower.Gives.bind (Q := Code.Shows P) ?_ fun code hcode => .pure ?_
    · rw [call]
      refine (shows_exprs _ hargs).bind fun (xs, code) hcode => ?_
      refine .andThen fun _ => .andThen fun _ => .pure ?_
      have hnote : (Piece.note s!"call {f.name}").Shows P := shows_note (by decide) hf
      simpa [shows_argumentMoves _ _ _ hcode.1, hcode.2] using hnote
    · simpa using hcode
  | .loop pos body, hst => by
    rw [stmt]
    refine .andThen fun _ => .andThen fun n => ?_
    refine (shows_stmts body hst).framed.bind fun code hcode => .pure ?_
    simpa [shows_word] using hcode
  | .ifThen pos e body, hst => by
    rw [stmt]
    obtain ⟨he, hbody⟩ := List.forall_mem_append.1 hst
    refine .andThen fun n => (shows_expr _ he).bind fun (x, code) hcode => ?_
    refine .andThen fun _ => (shows_stmts body hbody).framed.bind fun code' hcode' => .pure ?_
    have hif : (Piece.note "if").Shows P := shows_word (by decide)
    simpa [hif, hcode] using hcode'
  | .ifElse pos e thenBody elseBody, hst => by
    rw [stmt]
    obtain ⟨he, hbodies⟩ := List.forall_mem_append.1 hst
    obtain ⟨hthen, helse⟩ := List.forall_mem_append.1 hbodies
    refine .andThen fun n => (shows_expr _ he).bind fun (x, code) hcode => ?_
    refine .andThen fun _ => (shows_stmts thenBody hthen).framed.bind fun code₁ h₁ => ?_
    refine (shows_stmts elseBody helse).framed.bind fun code₂ h₂ => .pure ?_
    have hword : ∀ text ∈ ["if", "else"], (Piece.note text).Shows P :=
      fun text htext => shows_word (by revert text; decide)
    simpa [hcode, h₁, h₂] using hword
  | .read pos device property targetPos v, hst => by
    rw [stmt]
    have hproperty := List.forall_mem_singleton.1 hst
    refine .andThen fun r => .pure ?_
    refine Code.shows_cons.2 ⟨shows_note_place device.slot (by decide) hproperty, ?_⟩
    simpa using hproperty
  | .write pos e device property, hst => by
    rw [stmt]
    obtain ⟨hproperty, he⟩ := List.forall_mem_cons.1 hst
    refine (shows_expr _ he).bind fun (x, code) hcode => .andThen fun _ => .pure ?_
    refine Code.shows_cons.2 ⟨shows_note_place device.slot (by decide) hproperty, ?_⟩
    simpa [hcode] using hproperty
  | .yield pos, _ => by
    rw [stmt]
    exact .pure (by simp)

theorem shows_stmts : ∀ sts : List Resolved.Stmt, (∀ w ∈ Resolved.Stmt.wordsAll sts, P w) →
    (ctx.stmts sts).Gives (Code.Shows P)
  | [], _ => .pure Code.shows_nil
  | st :: sts, hsts => by
    rw [stmts]
    obtain ⟨hst, hsts⟩ := List.forall_mem_append.1 hsts
    refine (shows_stmt st hst).bind fun code₁ h₁ => (shows_stmts sts hsts).bind fun code₂ h₂ =>
      .pure ?_
    exact Code.shows_append.2 ⟨h₁, h₂⟩

end

end Context

/-! ## Sections -/

/-- Words in a piece have a property, and remarks are plain texts. -/
def Piece.Says (P : Word → Prop) : Piece → Prop
  | .line l => ∀ x ∈ l.operands, x.Says P
  | .note text => Text.Plain text.toList
  | _ => True

/-- Words in code have a property, and remarks are plain texts. -/
def Code.Says (P : Word → Prop) (code : Code) : Prop := ∀ piece ∈ code, piece.Says P

theorem Code.Shows.toSays (h : code.Shows P) (hP : ∀ w, P w → w.Solid) : code.Says P := by
  intro piece hpiece
  cases h piece hpiece with
  | label l => trivial
  | finish => trivial
  | note hplain => exact hplain hP
  | line _ hoperands => exact hoperands

/-- So it is with the lines so far and the remarks for the next one. -/
structure Draft.Says (P : Word → Prop) (d : Draft) : Prop where
  lines : ∀ i ∈ d.content.instructions, i.Shows P
  notes : ∀ text ∈ d.notes, Text.Plain text.toList

namespace Draft

variable {file : String} {comments : Bool} {d d' : Draft}

theorem shows_instruction (h : d.Says P) {l : Line} (hl : (Piece.line l).Says P) :
    (d.instruction file comments l).Shows P where
  operands := hl
  comment := by
    intro text htext
    simp only [instruction] at htext
    split at htext
    · cases htext
      exact Text.plain_intercalate (by decide) h.notes
    · cases htext

theorem says_add {piece : Piece} (h : d.Says P) (hpiece : piece.Says P)
    (hadd : d.add file comments piece = .ok d') : d'.Says P := by
  cases piece with
  | line l =>
    obtain ⟨-, rfl⟩ := add_line_eq_ok.1 hadd
    refine ⟨?_, List.forall_mem_nil _⟩
    exact List.forall_mem_append.2
      ⟨h.lines, List.forall_mem_singleton.2 (shows_instruction h hpiece)⟩
  | label l =>
    obtain ⟨-, rfl⟩ := add_label_eq_ok.1 hadd
    exact ⟨h.lines, h.notes⟩
  | note text =>
    cases hadd
    exact ⟨h.lines, List.forall_mem_append.2 ⟨h.notes, List.forall_mem_singleton.2 hpiece⟩⟩
  | finish =>
    cases hadd
    exact ⟨h.lines, List.forall_mem_nil _⟩

theorem says_addAll (h : d.Says P) (hcode : code.Says P)
    (hadd : d.addAll file comments code = .ok d') : d'.Says P := by
  induction code generalizing d with
  | nil =>
    cases hadd
    exact h
  | cons piece code ih =>
    obtain ⟨hpiece, hcode⟩ := List.forall_mem_cons.1 hcode
    obtain ⟨d₁, hd₁, hadd⟩ := addAll_cons_eq_ok hadd
    exact ih (says_add h hpiece hd₁) hcode hadd

end Draft

theorem Code.Says.toSection {file name : String} {comments : Bool} {sect : Section}
    (h : code.Says P) (hsect : Code.toSection file comments name code = .ok sect) :
    ∀ i ∈ sect.instructions, i.Shows P := by
  obtain ⟨d, hd, heq⟩ := bind_eq_ok.1 hsect
  obtain rfl := pure_eq_ok.1 heq
  exact (Draft.says_addAll ⟨List.forall_mem_nil _, List.forall_mem_nil _⟩ h hd).lines

namespace Context

variable {ctx : Context} {p : Resolved.Program} {Q : Section → Prop}

theorem says_items {is : List Resolved.Item} (hP : ∀ w, P w → w.Solid)
    (h : ∀ w ∈ is.flatMap Resolved.Item.words, P w) : (ctx.items is).Gives (Code.Says P) := by
  induction is with
  | nil => exact .pure (List.forall_mem_nil _)
  | cons i is ih =>
    rw [List.flatMap_cons] at h
    obtain ⟨hi, his⟩ := List.forall_mem_append.1 h
    have hitem : (ctx.item i).Gives (Code.Says P) := by
      have hfinish : Code.Says P [.finish] := List.forall_mem_singleton.2 trivial
      cases i with
      | nameSlot pos slotPos d =>
        rw [item]
        refine .andThen fun _ => .andThen fun _ => .andThen fun _ => ?_
        split
        · refine .pure (List.forall_mem_cons.2 ⟨?_, hfinish⟩)
          exact List.forall_mem_cons.2 ⟨hi _ (List.mem_singleton.2 rfl),
            List.forall_mem_singleton.2 trivial⟩
        · exact .pure hfinish
      | const c => exact .pure hfinish
      | func f => exact .pure hfinish
      | stmt st => exact fun s code s' hcode => (shows_stmt st hi s code s' hcode).toSays hP
    rw [items]
    refine hitem.bind fun code₁ h₁ => (ih his).bind fun code₂ h₂ => .pure ?_
    exact List.forall_mem_append.2 ⟨h₁, h₂⟩

theorem shows_returnAddress (origin : Origin) (f : String) (makesCalls : Bool) :
    (ctx.returnAddress origin f makesCalls).Gives fun r => r.2.Shows P := by
  unfold returnAddress
  split
  · exact .andThen fun r => .pure (by simp)
  · exact .pure Code.shows_nil

/-- The section of a function is made of code that shows the words of the function. -/
theorem gives_function {globals : List Register} {makesCalls : Bool} {f : Resolved.Function}
    (hf : ∀ w ∈ f.words, P w)
    (h : ∀ code sect, Code.Shows P code →
      Code.toSection ctx.file ctx.options.emitComments f.name code = .ok sect → Q sect) :
    (ctx.function globals makesCalls f).Gives Q := by
  rw [function]
  obtain ⟨hname, hf⟩ := List.forall_mem_cons.1 hf
  refine .andThen fun s => .andThen fun _ => .andThen fun _ => ?_
  refine (shows_returnAddress (P := P) _ _ _).bind fun x hentry => ?_
  obtain ⟨r, entry⟩ := x
  refine (shows_stmts f.body hf).bind fun body hbody => ?_
  refine Lower.Gives.bind (Q := Q) (.ofExcept fun sect hsect => h _ sect ?_ hsect) fun sect hsect =>
    .andThen fun _ => .andThen fun _ => .pure hsect
  have hnote : (Piece.note s!"fn {f.name}").Shows P := shows_note (by decide) hname
  simpa [hentry, hbody] using hnote

theorem gives_functions {graph : Resolved.CallGraph} {globals : List Register}
    (hp : ∀ w ∈ p.words, P w)
    (h : ∀ name code sect, Code.Shows P code →
      Code.toSection ctx.file ctx.options.emitComments name code = .ok sect → Q sect)
    (names : List String) :
    (ctx.functions p graph globals names).Gives fun ss => ∀ sect ∈ ss, Q sect := by
  induction names with
  | nil => exact .pure (List.forall_mem_nil _)
  | cons name names ih =>
    rw [functions]
    cases hf : p.function? name with
    | none => exact .throw
    | some f =>
      have hmem : .func f ∈ p.items := by
        obtain ⟨i, hi, hfunc⟩ := List.mem_filterMap.1 (List.mem_of_find?_eq_some hf)
        cases i <;> cases hfunc
        exact hi
      have hwords : ∀ w ∈ f.words, P w := fun w hw => hp w (List.mem_flatMap.2 ⟨_, hmem, hw⟩)
      refine (gives_function hwords (h f.name)).bind fun sect hsect =>
        ih.bind fun ss hss => .pure ?_
      exact List.forall_mem_cons.2 ⟨hsect, hss⟩

theorem gives_inSourceOrder {sections : List Section} (h : ∀ sect ∈ sections, Q sect)
    (fs : List Resolved.Function) :
    (inSourceOrder sections fs).Gives fun ss => ∀ sect ∈ ss, Q sect := by
  induction fs with
  | nil => exact .pure (List.forall_mem_nil _)
  | cons f fs ih =>
    rw [inSourceOrder]
    cases hfind : sections.find? (·.name = f.name) with
    | none => exact .throw
    | some sect =>
      refine ih.bind fun ss hss => .pure ?_
      exact List.forall_mem_cons.2 ⟨h sect (List.mem_of_find?_eq_some hfind), hss⟩

theorem shows_sections (hP : ∀ w, P w → w.Solid) (h : ∀ w ∈ p.words, P w) :
    (ctx.sections p).Gives fun ss => ∀ sect ∈ ss, ∀ i ∈ sect.instructions, i.Shows P := by
  have hsection {name : String} {code : Code} (hcode : code.Says P) :
      (Lower.ofExcept (Code.toSection ctx.file ctx.options.emitComments name code)).Gives
        fun sect => ∀ i ∈ sect.instructions, i.Shows P :=
    .ofExcept fun sect hsect => hcode.toSection hsect
  rw [sections]
  refine (says_items hP h).bind fun code hcode => .andThen fun _ => ?_
  dsimp only
  split
  · exact (hsection hcode).bind fun sect hsect => .pure (List.forall_mem_singleton.2 hsect)
  · have hexit : Code.Says P
        (code ++ [Origin.line ⟨"program end", .first⟩ .jump [.label .programEnd]]) :=
      List.forall_mem_append.2 ⟨hcode, by simp [Origin.line, Piece.Says]⟩
    have hend : Code.Says P [.label .programEnd] := List.forall_mem_singleton.2 trivial
    refine (hsection hexit).bind fun main hmain => .andThen fun s => ?_
    refine (gives_functions h (fun name code sect hcode hsect => (hcode.toSays hP).toSection hsect)
      _).bind fun functions hfunctions => ?_
    refine (gives_inSourceOrder hfunctions _).bind fun functions hfunctions => ?_
    refine (hsection hend).bind fun finish hfinish => .pure ?_
    exact List.forall_mem_append.2 ⟨List.forall_mem_cons.2 ⟨hmain, hfunctions⟩,
      List.forall_mem_singleton.2 hfinish⟩

end Context

end Chipwright.Lowering

namespace Chipwright

/-! ## Programs -/

variable {P : Word → Prop}

namespace Assembly

variable {addresses : List (Label × Nat)} {parameters : List ((String × Int) × Register)}

theorem says_of_resolve (hline : ∀ n : Nat, P (.value (.int n))) {x y : Operand}
    (h : resolve addresses parameters x = .ok y) (hx : x.Says P) : y.Says P := by
  cases x with
  | label l =>
    simp only [resolve] at h
    split at h <;> cases h
    exact hline _
  | parameter f index =>
    simp only [resolve] at h
    split at h <;> cases h
    trivial
  | _ =>
    cases h
    exact hx

theorem shows_of_linkAll (hline : ∀ n : Nat, P (.value (.int n))) {is js : List Instruction}
    (h : linkAll addresses parameters is = .ok js) (his : ∀ i ∈ is, i.Shows P) :
    ∀ j ∈ js, j.Shows P := by
  intro j hj
  obtain ⟨i, hi, hsame, hoperands⟩ := exists_of_mem_linkAll h hj
  refine ⟨fun y hy => ?_, hsame ▸ (his i hi).comment⟩
  obtain ⟨x, hx, hresolve⟩ := hoperands y hy
  exact says_of_resolve hline hresolve ((his i hi).operands x hx)

end Assembly

/-- The lines of a program show its words, and the numbers of lines. -/
theorem Resolved.Program.shows_of_link {file : String} {options : Options} {p : Resolved.Program}
    {g : Lowering.Generated} {linked : Linked} (hP : ∀ w, P w → w.Solid)
    (hline : ∀ n : Nat, P (.value (.int n))) (hwords : ∀ w ∈ p.words, P w)
    (hg : (p.generate file options).2 = .ok g) (hlink : g.assembly.link = .ok linked) :
    ∀ i ∈ linked.instructions, i.Shows P ∧ i.isLinked := by
  have hsections : ∀ sect ∈ g.assembly.sections, ∀ i ∈ sect.instructions, i.Shows P := by
    cases hpool : RegisterPool.ofCount options.registerCount [] with
    | error e => simp [generate, hpool] at hg
    | ok pool =>
      rw [generate_eq hpool] at hg
      split at hg
      · cases hg
      · rename_i ss s hss
        obtain ⟨_, -, heq⟩ := bind_eq_ok.1 hg
        obtain rfl := pure_eq_ok.1 heq
        exact Lowering.Context.shows_sections hP hwords _ ss s hss
  obtain ⟨addresses, -, hjs⟩ := Assembly.addresses_of_link hlink
  have hshows := Assembly.shows_of_linkAll hline hjs fun i hi => ?_
  · exact fun i hi => ⟨hshows i hi, Assembly.isLinked_of_link hlink i hi⟩
  obtain ⟨sect, hsect, hi⟩ := List.mem_flatMap.1 hi
  exact hsections sect hsect i hi

/-! ## Sources -/

/-- A name is one word. -/
theorem Lexer.solid_of_scan {source : List Char} {ts : TokenList} (h : scan source = .ok ts) :
    Grammar.Named (fun x => Text.Solid x.toList) ts.tokens := by
  intro t ht x hx
  obtain ⟨text, hspelling⟩ := exists_spelling_of_scan h ht
  rw [hx] at hspelling
  cases hspelling with
  | name hc hcs =>
    rw [String.toList_ofList]
    exact Text.solid_of_forall (p := isNameChar) (by decide)
      (List.forall_mem_cons.2 ⟨isNameChar_of_isNameStart hc, hcs⟩)

/-- The words of a program that was read from a source are single words in the text of a line. -/
theorem Resolved.Program.solid_words {file file' : String} {source : List Char} {strict : Bool}
    {limits limits' : Limits} {p : Chipwright.Program} {r : Resolved.Program}
    (hsource : Program.ofSource file source limits = .ok p)
    (hresolve : p.resolve file' strict limits' = .ok r) : ∀ w ∈ r.words, w.Solid := by
  obtain ⟨ts, hscan, hparse⟩ := Program.ofSource_eq_ok.1 hsource
  refine Program.says_of_resolve ⟨?_, fun _ _ _ _ _ => trivial⟩ (Program.parse_eq_ok_iff.1 hparse).1
    hresolve
  exact fun t ht x hx _ => Lexer.solid_of_scan hscan t ht x hx

end Chipwright
