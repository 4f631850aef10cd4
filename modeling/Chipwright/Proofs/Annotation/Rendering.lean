import Chipwright.Proofs.Annotation.Comments
import Chipwright.Proofs.Decimal.Numerals
import Chipwright.Proofs.Parsing.Words

/-!
# Comments in the text of a program

In the text of a program, a comment is what follows the first ` # ` of a line, and what stands
before it is cut into words by blanks. That this finds the parts of a line again depends on the
texts that lines are made of: those of opcodes, registers, slots and numbers hold no blank, `#` or
newline, so only names and comments have to be looked at.
-/
namespace Chipwright

namespace Text

/-! ## Plain texts -/

/-- The text has no character that starts a comment or ends a line. -/
def Plain (cs : List Char) : Prop := ∀ c ∈ cs, c ≠ '#' ∧ c ≠ '\n'

instance (cs : List Char) : Decidable (Plain cs) :=
  List.decidableBAll (fun c => c ≠ '#' ∧ c ≠ '\n') cs

variable {cs ds : List Char} {c : Char}

@[simp] theorem plain_nil : Plain [] := List.forall_mem_nil _

@[simp] theorem plain_cons : Plain (c :: cs) ↔ (c ≠ '#' ∧ c ≠ '\n') ∧ Plain cs :=
  List.forall_mem_cons

@[simp] theorem plain_append : Plain (cs ++ ds) ↔ Plain cs ∧ Plain ds :=
  List.forall_mem_append

theorem plain_append_toList {s t : String} :
    Plain (s ++ t).toList ↔ Plain s.toList ∧ Plain t.toList := by
  rw [String.toList_append, plain_append]

/-- The text is one word: it has no blank either. -/
def Solid (cs : List Char) : Prop := ∀ c ∈ cs, c ≠ ' ' ∧ c ≠ '#' ∧ c ≠ '\n'

instance (cs : List Char) : Decidable (Solid cs) :=
  List.decidableBAll (fun c => c ≠ ' ' ∧ c ≠ '#' ∧ c ≠ '\n') cs

theorem Solid.plain (h : Solid cs) : Plain cs := fun c hc => (h c hc).2

theorem solid_of_forall {p : Char → Bool} (hp : [' ', '#', '\n'].all (!p ·) = true)
    (h : ∀ c ∈ cs, p c = true) : Solid cs := by
  intro c hc
  have hne : ∀ d ∈ [' ', '#', '\n'], c ≠ d := by
    rintro d hd rfl
    have hfalse := List.all_eq_true.1 hp c hd
    simp [h c hc] at hfalse
  simpa using hne

theorem IsNumeral.solid (h : IsNumeral cs) : Solid cs := by
  refine solid_of_forall (p := fun c => c.isDigit || ['-', '.', 'e', '+'].contains c) (by decide)
    fun c hc => ?_
  simpa using h.mem hc

theorem solid_name_nat {letter : String} (h : Solid letter.toList) (n : Nat) :
    Solid (letter ++ toString n).toList := by
  rw [String.toList_append]
  exact List.forall_mem_append.2 ⟨h, (IsNumeral.positive (isMagnitude_nat n)).solid⟩

theorem plain_intercalate {separator : String} (hseparator : Plain separator.toList)
    {texts : List String} (h : ∀ t ∈ texts, Plain t.toList) :
    Plain (separator.intercalate texts).toList := by
  induction texts with
  | nil => simp
  | cons t ts ih =>
    obtain ⟨ht, hts⟩ := List.forall_mem_cons.1 h
    cases ts with
    | nil => simpa using ht
    | cons u us =>
      rw [String.intercalate_cons_cons, plain_append_toList, plain_append_toList]
      exact ⟨⟨ht, hseparator⟩, ih hts⟩

/-! ## Cutting off comments -/

/-- What stands before the first ` # ` of a line. -/
def beforeComment : List Char → List Char
  | [] => []
  | c :: cs => if [' ', '#', ' '] <+: c :: cs then [] else c :: beforeComment cs

/-- A text whose lines are cut off at their comments. -/
def withoutComments (text : String) : String :=
  "\n".intercalate ((text.toList.splitOn '\n').map fun line => String.ofList (beforeComment line))

theorem beforeComment_of_plain (h : Plain cs) : beforeComment cs = cs := by
  induction cs with
  | nil => rfl
  | cons c cs ih =>
    have hmark : ¬ [' ', '#', ' '] <+: c :: cs := fun hstart =>
      (h '#' (hstart.subset (by simp))).1 rfl
    rw [beforeComment, if_neg hmark, ih (plain_cons.1 h).2]

theorem beforeComment_append (h : Plain cs) (comment : List Char) :
    beforeComment (cs ++ ' ' :: '#' :: ' ' :: comment) = cs := by
  induction cs with
  | nil => simp [beforeComment]
  | cons c cs ih =>
    -- the mark cannot start inside a plain text, since its second character is in there or a blank
    have hmark : ¬ [' ', '#', ' '] <+: c :: (cs ++ ' ' :: '#' :: ' ' :: comment) := by
      cases cs with
      | nil => simp
      | cons d ds =>
        have hd : d ≠ '#' := (h d (by simp)).1
        simp [hd.symm]
    rw [List.cons_append, beforeComment, if_neg hmark, ih (plain_cons.1 h).2]

end Text

open Text (Solid)

/-! ## Operands -/

theorem Literal.solid_immediate (x : Literal) : Solid x.immediate.toList := by
  rcases x.immediate_cases with h | ⟨negative, rfl⟩ | rfl
  · exact h.solid
  · cases negative <;> decide
  · decide

theorem Register.solid_name (r : Register) : Solid r.name.toList := by
  unfold name
  split
  · decide
  · split
    · decide
    · exact Text.solid_name_nat (by decide) r.index.val

theorem Slot.solid_name (slot : Slot) : Solid slot.name.toList := by
  cases slot with
  | pin n => exact Text.solid_name_nat (by decide) n.val
  | housing => decide

theorem Opcode.solid_mnemonic (o : Opcode) : Solid o.mnemonic.toList := by
  cases o <;> decide

/-- A name is one word in the text of a line. Values always are. -/
def Word.Solid : Word → Prop
  | name x => Text.Solid x.toList
  | value _ => True

/-- The word that an operand is made of, if there is one, has a property. -/
def Operand.Says (P : Word → Prop) : Operand → Prop
  | name x => P (.name x)
  | number x => P (.value x)
  | _ => True

namespace Operand

variable {P : Word → Prop}

@[simp] theorem says_register (r : Register) : (register r).Says P := trivial

@[simp] theorem says_device (slot : Slot) : (device slot).Says P := trivial

@[simp] theorem says_label (l : Label) : (label l).Says P := trivial

@[simp] theorem says_name {x : String} : (name x).Says P ↔ P (.name x) := .rfl

theorem Says.mono {Q : Word → Prop} (h : ∀ w, P w → Q w) {x : Operand} (hx : x.Says P) :
    x.Says Q := by
  cases x with
  | name text => exact h _ hx
  | number value => exact h _ hx
  | _ => trivial

end Operand

theorem Operand.solid_text {x : Operand} (h : x.Says Word.Solid) (hlinked : x.isSymbolic = false) :
    Text.Solid x.text.toList := by
  cases x with
  | register r => exact r.solid_name
  | device slot => exact slot.solid_name
  | number value => exact value.solid_immediate
  | name text => exact h
  | label l => cases hlinked
  | parameter f index => cases hlinked

/-! ## Programs -/

/-- The words of the operands have a property, and the comment is a plain text. -/
structure Instruction.Shows (P : Word → Prop) (i : Instruction) : Prop where
  operands : ∀ x ∈ i.operands, x.Says P
  comment : ∀ text, i.comment = some text → Text.Plain text.toList

theorem Instruction.Shows.mono {P Q : Word → Prop} (h : ∀ w, P w → Q w) {i : Instruction}
    (hi : i.Shows P) : i.Shows Q :=
  ⟨fun x hx => (hi.operands x hx).mono h, hi.comment⟩

namespace Instruction

variable {i : Instruction} {comments : Bool}

/-- A line without its comment, in words. -/
def words (i : Instruction) : List String := i.opcode.mnemonic :: i.operands.map Operand.text

theorem render_false (i : Instruction) : i.render false = " ".intercalate i.words := by
  simp [render, words]

theorem solid_words (h : i.Shows Word.Solid) (hlinked : i.isLinked) :
    ∀ t ∈ i.words, Text.Solid t.toList := by
  have hoperands : ∀ x ∈ i.operands, x.isSymbolic = false := by simpa [isLinked] using hlinked
  refine List.forall_mem_cons.2 ⟨i.opcode.solid_mnemonic, List.forall_mem_map.2 fun x hx => ?_⟩
  exact Operand.solid_text (h.operands x hx) (hoperands x hx)

theorem plain_render_false (h : i.Shows Word.Solid) (hlinked : i.isLinked) :
    Text.Plain (i.render false).toList := by
  rw [render_false]
  exact Text.plain_intercalate (by decide) fun t ht => (solid_words h hlinked t ht).plain

theorem render_cases (i : Instruction) (comments : Bool) :
    i.render comments = i.render false ∨
      ∃ text, i.comment = some text ∧ i.render comments = i.render false ++ " # " ++ text := by
  cases comments with
  | false => exact Or.inl rfl
  | true =>
    unfold render
    cases hcomment : i.comment with
    | none => exact Or.inl rfl
    | some text =>
      dsimp only
      split
      · exact Or.inl rfl
      · exact Or.inr ⟨text, rfl, rfl⟩

/-- The text of a line without its comment is what stands before the comment. -/
theorem beforeComment_render (h : i.Shows Word.Solid) (hlinked : i.isLinked) :
    Text.beforeComment (i.render comments).toList = (i.render false).toList := by
  have hplain := plain_render_false h hlinked
  rcases i.render_cases comments with hsame | ⟨text, -, htext⟩
  · rw [hsame, Text.beforeComment_of_plain hplain]
  · rw [htext, String.toList_append, String.toList_append, List.append_assoc]
    exact Text.beforeComment_append hplain text.toList

theorem newline_notMem_render (h : i.Shows Word.Solid) (hlinked : i.isLinked) :
    '\n' ∉ (i.render comments).toList := by
  have hplain := plain_render_false h hlinked
  rcases i.render_cases comments with hsame | ⟨text, hcomment, htext⟩
  · rw [hsame]
    exact fun hmem => (hplain _ hmem).2 rfl
  · rw [htext, String.toList_append, String.toList_append, List.mem_append, List.mem_append]
    rintro ((hmem | hmem) | hmem)
    · exact (hplain _ hmem).2 rfl
    · exact absurd hmem (by decide)
    · exact (h.comment text hcomment _ hmem).2 rfl

end Instruction

namespace Linked

variable {p : Linked} {comments : Bool}

/-- The lines of the text are those of the program. -/
theorem splitOn_render (h : ∀ i ∈ p.instructions, i.Shows Word.Solid ∧ i.isLinked)
    (hne : p.instructions ≠ []) : (p.render comments).toList.splitOn '\n' =
      p.instructions.map fun i => (i.render comments).toList := by
  have htoList : (p.render comments).toList =
      ['\n'].intercalate (p.instructions.map fun i => (i.render comments).toList) := by
    rw [render, String.toList_intercalate, List.map_map]
    rfl
  rw [htoList, List.splitOn_intercalate '\n' ?_ (by simpa using hne)]
  exact List.forall_mem_map.2 fun i hi => Instruction.newline_notMem_render (h i hi).1 (h i hi).2

/-- Cutting off the comments of a program gives its text without comments. -/
theorem withoutComments_render (h : ∀ i ∈ p.instructions, i.Shows Word.Solid ∧ i.isLinked) :
    Text.withoutComments (p.render comments) = p.render false := by
  by_cases hempty : p.instructions = []
  · simp [render, hempty, Text.withoutComments, Text.beforeComment]
  rw [Text.withoutComments, splitOn_render h hempty, List.map_map, render]
  congr 1
  refine List.map_congr_left fun i hi => ?_
  change String.ofList (Text.beforeComment (i.render comments).toList) = i.render false
  rw [Instruction.beforeComment_render (h i hi).1 (h i hi).2, String.ofList_toList]

end Linked

end Chipwright
