import Chipwright.Lowering.Code
import Chipwright.Proofs.Basics

/-!
# What becomes of code in a section

A section can be made from code if the lines are well formed and no label is placed twice. It
then holds an instruction for each line, in their order, and the labels, each with the number of
lines before it.
-/
namespace Chipwright

/-- The labels that lowering makes are told by their names: two kinds differ in the first letter, or
in the last. -/
theorem Label.eq_of_text_eq {l l' : Label} (hl : ∀ name, l ≠ .named name)
    (hl' : ∀ name, l' ≠ .named name) (h : l.text = l'.text) : l = l' := by
  have hdigits {n n' : Nat} (h : Nat.toDigits 10 n = Nat.toDigits 10 n') : n = n' := by
    have hread (n : Nat) : Nat.ofDigitChars 10 (Nat.toDigits 10 n) 0 = n :=
      Nat.ofDigitChars_toDigits (by decide) (by decide)
    rw [← hread n, h, hread]
  have htext (s : String) : toString s = s := rfl
  have hlist := congrArg String.toList h
  cases l <;> cases l' <;> simp [text, htext] at hl hl' hlist ⊢
  case loop.loop | ifElse.ifElse | ifEnd.ifEnd => exact hdigits hlist
  case function.function => exact String.toList_injective hlist
  case ifElse.ifEnd | ifEnd.ifElse => simpa using congrArg List.getLast? hlist

namespace Instruction

/-- What the chip gets to see of an instruction. -/
def command (i : Instruction) : Opcode × List Operand := (i.opcode, i.operands)

theorem misfit?_eq_none_iff {kinds : List OperandKind} {xs : List Operand} :
    misfit? kinds xs = none ↔ ∀ p ∈ kinds.zip xs, p.1.accepts p.2 = true := by
  fun_induction misfit? kinds xs with
  | case1 kind kinds x xs haccepts ih => simp [haccepts, ih]
  | case2 kind kinds x xs haccepts => simp [haccepts]
  | case3 kinds xs hcons =>
    have hnil : kinds.zip xs = [] := by
      cases kinds with
      | nil => rfl
      | cons kind kinds =>
        cases xs with
        | nil => rfl
        | cons x xs => exact absurd rfl (hcons kind kinds x xs rfl)
    simp [hnil]

theorem checked_eq_ok_iff {i j : Instruction} : i.checked = .ok j ↔ i.WellFormed ∧ i = j := by
  have hfault : i.fault? = none ↔ i.WellFormed := by
    unfold fault? WellFormed
    split
    · rename_i hlength
      simp [hlength]
    · rename_i hlength
      rw [Option.map_eq_none_iff, misfit?_eq_none_iff]
      simp [not_not.1 hlength]
  unfold checked
  split
  · rename_i fault hsome
    simp [← hfault, hsome]
  · rename_i hnone
    simp [← hfault, hnone]

end Instruction

theorem Section.place_eq_ok {s s' : Section} {l : Label} :
    s.place l = .ok s' ↔ l ∉ s.labels.map Prod.fst ∧
      s' = { s with labels := s.labels ++ [(l, s.size)] } := by
  have hsome : (s.labels.lookup l).isSome ↔ l ∈ s.labels.map Prod.fst := by
    simp [List.lookup_isSome_iff]
  unfold place
  split
  · rename_i hmem
    simp [← hsome, hmem]
  · rename_i hnone
    simp [← hsome, hnone, eq_comm]

namespace Lowering

namespace Line

def command (l : Line) : Opcode × List Operand := (l.opcode, l.operands)

/-- The operands are as many as the opcode takes, and each fits its place. -/
def WellFormed (l : Line) : Prop :=
  l.operands.length = l.opcode.operands.length ∧
    ∀ p ∈ l.opcode.operands.zip l.operands, p.1.accepts p.2 = true

/-- The instruction of a line, with any comment. -/
structure Gives (file : String) (l : Line) (i : Instruction) : Prop where
  opcode : i.opcode = l.opcode
  operands : i.operands = l.operands
  location : i.location = some (l.origin.pos.inFile file)
  origin : i.origin = some l.origin.text

theorem Gives.command {file : String} {l : Line} {i : Instruction} (h : l.Gives file i) :
    i.command = l.command := Prod.ext h.opcode h.operands

end Line

/-- The lines among the pieces of code. -/
def Code.lines (code : Code) : List Line :=
  code.filterMap fun
    | .line l => some l
    | _ => none

/-- The number of lines. -/
def Code.size (code : Code) : Nat := code.lines.length

@[simp] theorem Code.size_nil : Code.size [] = 0 := rfl

@[simp] theorem Code.size_line (l : Line) (code : Code) :
    Code.size (.line l :: code) = code.size + 1 := rfl

@[simp] theorem Code.size_label (l : Label) (code : Code) :
    Code.size (.label l :: code) = code.size := rfl

@[simp] theorem Code.size_note (text : String) (code : Code) :
    Code.size (.note text :: code) = code.size := rfl

@[simp] theorem Code.size_finish (code : Code) : Code.size (.finish :: code) = code.size := rfl

@[simp] theorem Code.size_append (code₁ code₂ : Code) :
    Code.size (code₁ ++ code₂) = code₁.size + code₂.size := by
  simp [Code.size, Code.lines]

namespace Code

/-- The labels that code places. -/
def labels (code : Code) : List Label :=
  code.filterMap fun
    | .label l => some l
    | _ => none

@[simp] theorem mem_lines {code : Code} {l : Line} : l ∈ code.lines ↔ Piece.line l ∈ code := by
  simp only [lines, List.mem_filterMap]
  constructor
  · rintro ⟨piece, hpiece, heq⟩
    cases piece with
    | line l' =>
      cases heq
      exact hpiece
    | _ => cases heq
  · intro h
    exact ⟨_, h, rfl⟩

@[simp] theorem labels_append (code₁ code₂ : Code) :
    Code.labels (code₁ ++ code₂) = Code.labels code₁ ++ Code.labels code₂ :=
  List.filterMap_append

@[simp] theorem labels_line (origin : Origin) (opcode : Opcode) (operands : List Operand)
    (code : Code) : Code.labels (origin.line opcode operands :: code) = Code.labels code := rfl

@[simp] theorem labels_label (l : Label) (code : Code) :
    Code.labels (.label l :: code) = l :: Code.labels code := rfl

@[simp] theorem labels_note (text : String) (code : Code) :
    Code.labels (.note text :: code) = Code.labels code := rfl

@[simp] theorem labels_finish (code : Code) :
    Code.labels (.finish :: code) = Code.labels code := rfl

@[simp] theorem labels_nil : Code.labels [] = [] := rfl

/-- The labels of code, each with the number of lines before it if there are `n` before the code. -/
def placements : Nat → Code → List (Label × Nat)
  | _, [] => []
  | n, .line _ :: code => placements (n + 1) code
  | n, .label l :: code => (l, n) :: placements n code
  | n, .note _ :: code => placements n code
  | n, .finish :: code => placements n code

theorem map_fst_placements (n : Nat) (code : Code) :
    (placements n code).map Prod.fst = labels code := by
  induction code generalizing n with
  | nil => rfl
  | cons piece code ih => cases piece <;> simp [placements, ih, labels]

theorem placements_le {n : Nat} {code : Code} : ∀ e ∈ placements n code, e.2 ≤ n + code.size := by
  induction code generalizing n with
  | nil => exact List.forall_mem_nil _
  | cons piece code ih =>
    cases piece with
    | line l => simpa [placements, Nat.add_assoc, Nat.add_comm 1] using @ih (n + 1)
    | label l => exact List.forall_mem_cons.2 ⟨Nat.le_add_right .., ih⟩
    | note text => exact ih
    | finish => exact ih

theorem placements_add (n k : Nat) (code : Code) :
    placements (n + k) code = (placements k code).map fun e => (e.1, n + e.2) := by
  induction code generalizing k with
  | nil => rfl
  | cons piece code ih => cases piece <;> simp [placements, ih, Nat.add_assoc]

end Code

namespace Draft

variable {file : String} {comments : Bool} {d d' : Draft}

theorem add_line_eq_ok {l : Line} :
    d.add file comments (.line l) = .ok d' ↔ l.WellFormed ∧
      d' = ⟨d.content.emit (d.instruction file comments l), []⟩ := by
  have hwf : (d.instruction file comments l).WellFormed ↔ l.WellFormed := Iff.rfl
  simp only [add]
  split
  · rename_i i hchecked
    obtain ⟨h, rfl⟩ := Instruction.checked_eq_ok_iff.1 hchecked
    simp [hwf.1 h, eq_comm]
  · rename_i fault hchecked
    have hnot : ¬ l.WellFormed := fun h => by
      rw [Instruction.checked_eq_ok_iff.2 ⟨hwf.2 h, rfl⟩] at hchecked
      cases hchecked
    simp [hnot]

theorem add_label_eq_ok {l : Label} :
    d.add file comments (.label l) = .ok d' ↔ l ∉ d.content.labels.map Prod.fst ∧
      d' = { d with content := { d.content with
        labels := d.content.labels ++ [(l, d.content.size)] } } := by
  simp only [add]
  split
  · rename_i content hplace
    obtain ⟨hnew, rfl⟩ := Section.place_eq_ok.1 hplace
    simp [hnew, eq_comm]
  · rename_i e hplace
    constructor
    · intro h
      cases h
    · rintro ⟨hnew, -⟩
      rw [Section.place_eq_ok.2 ⟨hnew, rfl⟩] at hplace
      cases hplace

theorem addAll_cons_eq_ok {piece : Piece} {code : Code}
    (h : addAll file comments d (piece :: code) = .ok d') :
    ∃ d₁, d.add file comments piece = .ok d₁ ∧ addAll file comments d₁ code = .ok d' := by
  rw [addAll] at h
  split at h
  · exact ⟨_, ‹_›, h⟩
  · cases h

/-- Code adds an instruction for each line, and its labels. -/
theorem addAll_eq_ok {code : Code} (h : addAll file comments d code = .ok d') :
    ∃ is, List.Forall₂ (Line.Gives file) code.lines is ∧
      d'.content = ⟨d.content.name, d.content.instructions ++ is,
        d.content.labels ++ code.placements d.content.size⟩ := by
  induction code generalizing d with
  | nil =>
    cases h
    exact ⟨[], .nil, by simp [Code.placements]⟩
  | cons piece code ih =>
    obtain ⟨d₁, hadd, h⟩ := addAll_cons_eq_ok h
    obtain ⟨is, his, hcontent⟩ := ih h
    cases piece with
    | line l =>
      obtain ⟨-, rfl⟩ := add_line_eq_ok.1 hadd
      refine ⟨d.instruction file comments l :: is, .cons ⟨rfl, rfl, rfl, rfl⟩ his, ?_⟩
      simpa [Section.emit, Section.size, Code.placements] using hcontent
    | label l =>
      obtain ⟨-, rfl⟩ := add_label_eq_ok.1 hadd
      exact ⟨is, his, by simpa [Section.size, Code.placements] using hcontent⟩
    | note text =>
      cases hadd
      exact ⟨is, his, hcontent⟩
    | finish =>
      cases hadd
      exact ⟨is, his, hcontent⟩

/-- Well-formed lines and new labels can be added. -/
theorem exists_addAll {code : Code} (hlines : ∀ l ∈ code.lines, l.WellFormed)
    (hlabels : (d.content.labels.map Prod.fst ++ code.labels).Nodup) :
    ∃ d', addAll file comments d code = .ok d' := by
  induction code generalizing d with
  | nil => exact ⟨d, rfl⟩
  | cons piece code ih =>
    have hadd : ∃ d₁, d.add file comments piece = .ok d₁ ∧
        (d₁.content.labels.map Prod.fst ++ Code.labels code).Nodup := by
      cases piece with
      | line l => exact ⟨_, add_line_eq_ok.2 ⟨hlines l (by simp), rfl⟩, hlabels⟩
      | label l =>
        refine ⟨_, add_label_eq_ok.2 ⟨fun hmem => ?_, rfl⟩, by simpa using hlabels⟩
        exact (List.nodup_append'.1 hlabels).2.2 hmem (by simp)
      | note text => exact ⟨_, rfl, hlabels⟩
      | finish => exact ⟨_, rfl, hlabels⟩
    obtain ⟨d₁, hd₁, hlabels'⟩ := hadd
    rw [addAll, hd₁]
    refine ih (fun l hl => hlines l ?_) hlabels'
    rw [Code.mem_lines] at hl ⊢
    exact List.mem_cons_of_mem _ hl

end Draft

namespace Code

variable {file name : String} {comments : Bool} {code : Code} {sect : Section}

/-- A section holds an instruction for each line of its code, and the labels. -/
theorem toSection_eq_ok (h : Code.toSection file comments name code = .ok sect) :
    ∃ is, List.Forall₂ (Line.Gives file) code.lines is ∧
      sect = ⟨name, is, code.placements 0⟩ := by
  simp only [Code.toSection, bind_eq_ok, pure_eq_ok] at h
  obtain ⟨d, hd, rfl⟩ := h
  exact Draft.addAll_eq_ok hd

theorem name_of_toSection (h : Code.toSection file comments name code = .ok sect) :
    sect.name = name := by
  obtain ⟨is, -, rfl⟩ := toSection_eq_ok h
  rfl

theorem labels_of_toSection (h : Code.toSection file comments name code = .ok sect) :
    sect.labels.map Prod.fst = code.labels := by
  obtain ⟨is, -, rfl⟩ := toSection_eq_ok h
  exact map_fst_placements 0 code

/-- No label is placed past the end. -/
theorem position_le_of_toSection (h : Code.toSection file comments name code = .ok sect) :
    ∀ e ∈ sect.labels, e.2 ≤ sect.size := by
  obtain ⟨is, his, rfl⟩ := toSection_eq_ok h
  intro e he
  have hle := placements_le e he
  rwa [Nat.zero_add, Code.size, his.length_eq] at hle

theorem commands_of_toSection (h : Code.toSection file comments name code = .ok sect) :
    sect.instructions.map Instruction.command = code.lines.map Line.command := by
  obtain ⟨is, his, rfl⟩ := toSection_eq_ok h
  clear h
  generalize code.lines = ls at his
  induction his with
  | nil => rfl
  | cons hi _ ih => exact congrArg₂ List.cons hi.command ih

/-- Every instruction of a section comes from a line of its code. -/
theorem exists_line_of_toSection {i : Instruction}
    (h : Code.toSection file comments name code = .ok sect) (hi : i ∈ sect.instructions) :
    ∃ l, Piece.line l ∈ code ∧ l.Gives file i := by
  obtain ⟨is, his, rfl⟩ := toSection_eq_ok h
  obtain ⟨l, hl, hgives⟩ := exists_of_forall₂ his.flip hi
  exact ⟨l, mem_lines.1 hl, hgives⟩

/-- The instruction of a line. -/
theorem getElem?_of_toSection (h : Code.toSection file comments name code = .ok sect) {n : Nat}
    {l : Line} (hl : code.lines[n]? = some l) :
    ∃ i, sect.instructions[n]? = some i ∧ l.Gives file i := by
  obtain ⟨is, his, rfl⟩ := toSection_eq_ok h
  obtain ⟨hn, rfl⟩ := List.getElem?_eq_some_iff.1 hl
  have hn' : n < is.length := his.length_eq ▸ hn
  exact ⟨is[n], List.getElem?_eq_getElem hn', his.get hn hn'⟩

theorem exists_toSection (hlines : ∀ l ∈ code.lines, l.WellFormed) (hlabels : code.labels.Nodup) :
    ∃ sect, Code.toSection file comments name code = .ok sect := by
  obtain ⟨d, hd⟩ : ∃ d, Draft.addAll file comments { content := { name } } code = .ok d :=
    Draft.exists_addAll hlines (by simpa using hlabels)
  exact ⟨d.content, by simp [Code.toSection, hd, bind, Except.bind, pure, Except.pure]⟩

end Code

end Lowering

end Chipwright
