import Chipwright.Proofs.Relabeling.Stages

/-!
# Names have no part in the program that the chip gets

Whoever writes a program is free in the choice of its names. With others it is built into the same
instructions, except that `alias` shows the new name of a device, and if it has a fault it is
refused for the same one. Properties of devices are no names of the program.

## Main definitions

* `Identifier`: the words that can be names
* `Program.renamed`, `Instruction.renamed`: with other names

## Main statements

* `Program.build_renamed`: a program with other names is built alike
-/
namespace Chipwright

/-! ## Identifiers -/

/-- A word that is no keyword and no name of a slot. -/
structure IsIdentifier (x : String) : Prop where
  start : x.toList.head?.any Lexer.isNameStart = true
  rest : x.toList.tail.all Lexer.isNameChar = true
  free : Lexer.wordKind x = .name x

instance (x : String) : Decidable (IsIdentifier x) :=
  decidable_of_iff (x.toList.head?.any Lexer.isNameStart = true ∧
    x.toList.tail.all Lexer.isNameChar = true ∧ Lexer.wordKind x = .name x)
    ⟨fun ⟨hstart, hrest, hfree⟩ => ⟨hstart, hrest, hfree⟩,
      fun ⟨hstart, hrest, hfree⟩ => ⟨hstart, hrest, hfree⟩⟩

/-- The words that can be names. -/
abbrev Identifier := { x : String // IsIdentifier x }

/-- Other names for identifiers; what is no identifier stays as it is. -/
def Identifier.onText (ρ : Identifier ↪ Identifier) : String ↪ String where
  toFun x := if h : IsIdentifier x then (ρ ⟨x, h⟩).1 else x
  inj' := by
    intro x y heq
    by_cases hx : IsIdentifier x
    · by_cases hy : IsIdentifier y
      · simp only [dif_pos hx, dif_pos hy] at heq
        exact congrArg Subtype.val (ρ.injective (Subtype.ext heq))
      · simp only [dif_pos hx, dif_neg hy] at heq
        exact absurd (heq ▸ (ρ ⟨x, hx⟩).2) hy
    · by_cases hy : IsIdentifier y
      · simp only [dif_neg hx, dif_pos hy] at heq
        exact absurd (heq ▸ (ρ ⟨y, hy⟩).2) hx
      · simpa only [dif_neg hx, dif_neg hy] using heq

/-- The program with other names. -/
def Program.renamed (ρ : Identifier ↪ Identifier) (p : Program) : Program :=
  p.relabel (.naming (Identifier.onText ρ))

/-! ## Instructions -/

def Operand.renamed (ρ : Identifier ↪ Identifier) : Operand → Operand
  | name text => .name (Identifier.onText ρ text)
  | x => x

namespace Instruction

/-- Names stand in the instructions that name devices. The texts in others are properties. -/
def renamed (ρ : Identifier ↪ Identifier) (i : Instruction) : Instruction :=
  if i.opcode = .nameDevice then { i with operands := i.operands.map (Operand.renamed ρ) } else i

/-- The instruction without its comment and without the construct it comes from. Both are told in
the words of the source. -/
def bare (i : Instruction) : Instruction := { i with comment := none, origin := none }

end Instruction

theorem Operand.relabel_naming (ρ : Identifier ↪ Identifier) (opcode : Opcode) {x : Operand}
    (h : x.isSymbolic = false) :
    x.relabel (.naming (Identifier.onText ρ)) opcode =
      if opcode = .nameDevice then x.renamed ρ else x := by
  cases x with
  | label l => cases h
  | parameter function index => cases h
  | name text =>
    simp only [relabel, renamed, apply_ite Operand.name]
    rfl
  | _ => simp only [relabel, renamed, ite_self]

/-- A linked instruction of which all but the names is the same. -/
theorem Instruction.Alike.bare_eq {ρ : Identifier ↪ Identifier} {i i' : Instruction}
    (h : i.Alike (.naming (Identifier.onText ρ)) i')
    (hlinked : i.isLinked) : i'.bare = (i.renamed ρ).bare := by
  have hlocation : i'.location = i.location := by
    have hmoves := h.location
    generalize i.location = l at hmoves ⊢
    generalize i'.location = l' at hmoves ⊢
    cases hmoves <;> rfl
  have hoperands : i'.operands = (i.renamed ρ).operands := by
    rw [h.operands, renamed,
      List.map_congr_left fun x hx =>
        Operand.relabel_naming ρ i.opcode (isLinked_iff.1 hlinked x hx)]
    split
    · rfl
    · exact List.map_id' _
  have hopcode : (i.renamed ρ).opcode = i.opcode := by
    unfold renamed
    split <;> rfl
  have hplace : (i.renamed ρ).location = i.location := by
    unfold renamed
    split <;> rfl
  simp only [bare, h.opcode, hlocation, hoperands, hopcode, hplace]

namespace Program

variable {file : String} {options : Options} {p : Program}

theorem isLinked_of_build {b : Lowering.Generated × Linked} (h : p.build file options = .ok b) :
    ∀ i ∈ b.2.instructions, i.isLinked := by
  simp only [build, bind_eq_ok, pure_eq_ok, mapError_eq_ok] at h
  obtain ⟨r, -, g, -, linked, hlink, rfl⟩ := h
  exact Assembly.isLinked_of_link hlink

/-- A program with other names is built into the same instructions, but for the names that `alias`
shows, or is refused for the same fault. -/
theorem build_renamed (ρ : Identifier ↪ Identifier) (file : String) (options : Options)
    (p : Program) :
    Matches (fun e e' => e'.form = e.form)
      (fun b b' =>
        b'.2.instructions.map Instruction.bare =
          b.2.instructions.map (fun i => (i.renamed ρ).bare) ∧
        b'.1.registers = b.1.registers)
      (p.build file options) ((p.renamed ρ).build file options) := by
  refine (p.matches_build file options).attach.mono (fun e e' he => he.form) ?_
  rintro b b' ⟨hsame, hbuild, -⟩
  refine ⟨?_, hsame.registers.symm⟩
  have hlinked := isLinked_of_build hbuild
  have hinstructions := hsame.instructions
  generalize b.2.instructions = is at hlinked hinstructions ⊢
  generalize b'.2.instructions = is' at hinstructions ⊢
  induction hinstructions with
  | nil => rfl
  | @cons i i' is is' hi _ ih =>
    obtain ⟨hoperands, hrest⟩ := List.forall_mem_cons.1 hlinked
    rw [List.map_cons, List.map_cons, hi.bare_eq hoperands, ih hrest]

end Program

end Chipwright
