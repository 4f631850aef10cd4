import Chipwright.Proofs.Lowering.Sections
import Mathlib.Algebra.GroupWithZero.Nat

/-!
# Where code stands in a linked program

Lowering writes code piece by piece, with labels between the lines; linking throws the pieces
of all sections together and replaces labels by line numbers. `Placed` is what remains of the
pieces in the linked program: each line stands where it should, with its symbolic operands
resolved, and each label has the number of the line after it.
-/
namespace Chipwright

open Lowering (Code Line Piece)

/-- A linked program with the tables that it was linked by. -/
structure Image where
  linked : Linked
  addresses : List (Label × Nat)
  parameters : List ((String × Int) × Register)

namespace Image

/-- A line of the program is what linking has made of a line of code. -/
def HasLine (image : Image) (n : Nat) (l : Line) : Prop :=
  ∃ i, image.linked.instructions[n]? = some i ∧ i.opcode = l.opcode ∧
    Assembly.resolveAll image.addresses image.parameters l.operands = .ok i.operands

/-- Code stands in the program from a line on. -/
def Placed (image : Image) : Nat → Code → Prop
  | _, [] => True
  | n, .line l :: code => image.HasLine n l ∧ Placed image (n + 1) code
  | n, .label l :: code => image.addresses.lookup l = some n ∧ Placed image n code
  | n, .note _ :: code => Placed image n code
  | n, .finish :: code => Placed image n code

variable {image : Image}

@[simp] theorem placed_append {n : Nat} {code₁ code₂ : Code} :
    image.Placed n (code₁ ++ code₂) ↔
      image.Placed n code₁ ∧ image.Placed (n + code₁.size) code₂ := by
  induction code₁ generalizing n with
  | nil => simp [Placed]
  | cons piece code ih =>
    cases piece with
    | line l =>
      have harith : n + 1 + Code.size code = n + (Code.size code + 1) := by omega
      simp [Placed, ih, and_assoc, harith]
    | label l => simp [Placed, ih, and_assoc]
    | note text => simp [Placed, ih]
    | finish => simp [Placed, ih]

/-- A line among placed code stands somewhere in its range. -/
theorem Placed.exists_hasLine {n k : Nat} {code : Code} (h : image.Placed n code)
    (hk : n ≤ k) (hk' : k < n + code.size) : ∃ l, Piece.line l ∈ code ∧ image.HasLine k l := by
  induction code generalizing n with
  | nil => simp at hk'; omega
  | cons piece code ih =>
    cases piece with
    | line l =>
      by_cases heq : n = k
      · subst heq
        exact ⟨l, List.mem_cons_self .., h.1⟩
      · obtain ⟨l', hmem, hline⟩ := ih h.2 (by omega) (by simp at hk'; omega)
        exact ⟨l', List.mem_cons_of_mem _ hmem, hline⟩
    | label l =>
      obtain ⟨l', hmem, hline⟩ := ih h.2 hk hk'
      exact ⟨l', List.mem_cons_of_mem _ hmem, hline⟩
    | note text =>
      obtain ⟨l', hmem, hline⟩ := ih h hk hk'
      exact ⟨l', List.mem_cons_of_mem _ hmem, hline⟩
    | finish =>
      obtain ⟨l', hmem, hline⟩ := ih h hk hk'
      exact ⟨l', List.mem_cons_of_mem _ hmem, hline⟩

/-- A label among placed code leads into its range, or to the line after it. -/
theorem Placed.address {n : Nat} {code : Code} {l : Label} (h : image.Placed n code)
    (hl : Piece.label l ∈ code) :
    ∃ k, image.addresses.lookup l = some k ∧ n ≤ k ∧ k ≤ n + code.size := by
  obtain ⟨before, after, rfl⟩ := List.append_of_mem hl
  rw [placed_append] at h
  exact ⟨n + Code.size before, h.2.1, by omega, by simp⟩

/-- Code is placed if its lines and its labels are where they should be. -/
theorem placed_of_forall {n : Nat} {code : Code}
    (hlines : ∀ k l, code.lines[k]? = some l → image.HasLine (n + k) l)
    (hlabels : ∀ e ∈ code.placements n, image.addresses.lookup e.1 = some e.2) :
    image.Placed n code := by
  induction code generalizing n with
  | nil => trivial
  | cons piece code ih =>
    cases piece with
    | line l =>
      refine ⟨hlines 0 l rfl, ih (fun k l' hl' => ?_) hlabels⟩
      have hline := hlines (k + 1) l' hl'
      rwa [Nat.add_comm k, ← Nat.add_assoc] at hline
    | label l =>
      obtain ⟨hl, hlabels⟩ := List.forall_mem_cons.1 hlabels
      exact ⟨hl, ih hlines hlabels⟩
    | note text => exact ih hlines hlabels
    | finish => exact ih hlines hlabels

end Image

theorem Instruction.isLinked_iff {i : Instruction} :
    i.isLinked ↔ ∀ x ∈ i.operands, x.isSymbolic = false := by
  simp [isLinked]

namespace Assembly

variable {k offset : Nat} {sect : Section} {linked : Linked}

variable {a : Assembly} {addresses known known' : List (Label × Nat)}
  {parameters : List ((String × Int) × Register)}

/-- The line at which the section with an index starts. -/
def start (a : Assembly) (k : Nat) : Nat := ((a.sections.take k).map Section.size).sum

/-- A line lies in the section with an index. -/
def Within (a : Assembly) (k n : Nat) : Prop := a.start k ≤ n ∧ n < a.start (k + 1)

theorem start_succ (h : a.sections[k]? = some sect) : a.start (k + 1) = a.start k + sect.size := by
  have htake : a.sections.take (k + 1) = a.sections.take k ++ [sect] := by
    rw [List.take_add_one, h]
    rfl
  simp [start, htake]

theorem size_eq_sum (a : Assembly) : a.size = (a.sections.map Section.size).sum := by
  simp [size, instructions, List.length_flatMap]
  rfl

theorem start_length (a : Assembly) : a.start a.sections.length = a.size := by
  rw [start, List.take_length, size_eq_sum]

/-- The instructions of a section stand one after another from its start on. -/
theorem instructions_getElem? {n : Nat} (h : a.sections[k]? = some sect) (hn : n < sect.size) :
    a.instructions[a.start k + n]? = sect.instructions[n]? := by
  obtain ⟨hk, rfl⟩ := List.getElem?_eq_some_iff.1 h
  have hsplit : a.sections.take k ++ a.sections[k] :: a.sections.drop (k + 1) = a.sections := by
    rw [← List.drop_eq_getElem_cons hk, List.take_append_drop]
  have hlength : ((a.sections.take k).flatMap Section.instructions).length = a.start k := by
    simp [start, List.length_flatMap]
    rfl
  have hinstructions : a.instructions = (a.sections.take k).flatMap Section.instructions ++
      (a.sections[k].instructions ++
        (a.sections.drop (k + 1)).flatMap Section.instructions) := by
    rw [← List.flatMap_cons, ← List.flatMap_append, hsplit]
    rfl
  rw [hinstructions, List.getElem?_append_right (by omega), hlength, Nat.add_sub_cancel_left,
    List.getElem?_append_left hn]

/-! ## Addresses -/

/-- Labels that are placed once each get the lines after the offset. -/
theorem addLabels_eq_ok {labels : List (Label × Nat)}
    (h : (known.map Prod.fst ++ labels.map Prod.fst).Nodup) :
    addLabels offset known labels =
      .ok (known ++ labels.map fun e => (e.1, offset + e.2)) := by
  induction labels generalizing known with
  | nil => simp [addLabels]
  | cons e labels ih =>
    obtain ⟨l, position⟩ := e
    have hnew : l ∉ known.map Prod.fst := fun hmem =>
      (List.nodup_append'.1 h).2.2 hmem (by simp)
    have hnone : ¬ (known.lookup l).isSome := by simpa [List.lookup_isSome_iff] using hnew
    rw [addLabels, if_neg hnone, ih (by simpa using h)]
    simp

/-- Labels that have an address keep it while others get theirs, and each of a section's
labels gets the line after the offset. -/
theorem lookup_of_addLabels {labels : List (Label × Nat)}
    (h : addLabels offset known labels = .ok known') :
    (∀ l n, known.lookup l = some n → known'.lookup l = some n) ∧
      ∀ e ∈ labels, known'.lookup e.1 = some (offset + e.2) := by
  induction labels generalizing known with
  | nil =>
    cases h
    exact ⟨fun _ _ hl => hl, by simp⟩
  | cons e labels ih =>
    obtain ⟨l, position⟩ := e
    simp only [addLabels] at h
    split at h
    · cases h
    · rename_i hnew
      obtain ⟨hkeep, hplace⟩ := ih h
      have hnone : known.lookup l = none := Option.not_isSome_iff_eq_none.1 hnew
      refine ⟨fun l' n hl' => hkeep l' n ?_, fun e he => ?_⟩
      · rw [List.lookup_append, hl']
        rfl
      · rcases List.mem_cons.1 he with rfl | he
        · apply hkeep
          simp [List.lookup_append, hnone]
        · exact hplace e he

theorem lookup_of_addressesFrom {sections : List Section}
    (h : addressesFrom offset known sections = .ok addresses) :
    (∀ l n, known.lookup l = some n → addresses.lookup l = some n) ∧
      ∀ k sect, sections[k]? = some sect → ∀ e ∈ sect.labels,
        addresses.lookup e.1 =
          some (offset + ((sections.take k).map Section.size).sum + e.2) := by
  induction sections generalizing offset known with
  | nil =>
    cases h
    exact ⟨fun _ _ hl => hl, by simp⟩
  | cons s sections ih =>
    rw [addressesFrom] at h
    split at h
    · cases h
    · rename_i known' hadd
      obtain ⟨hkeep, hplace⟩ := lookup_of_addLabels hadd
      obtain ⟨hkeep', hplace'⟩ := ih h
      refine ⟨fun l n hl => hkeep' l n (hkeep l n hl), fun k sect hk e he => ?_⟩
      cases k with
      | zero =>
        obtain rfl : s = sect := by simpa using hk
        simpa using hkeep' _ _ (hplace e he)
      | succ k =>
        have := hplace' k sect (by simpa using hk) e he
        simpa [Nat.add_assoc] using this

/-! ## Linking -/

/-- Linking changes operands only. -/
theorem forall₂_of_linkAll {is js : List Instruction}
    (h : linkAll addresses parameters is = .ok js) :
    List.Forall₂ (fun i j => j = { i with operands := j.operands } ∧
      resolveAll addresses parameters i.operands = .ok j.operands) is js := by
  induction is generalizing js with
  | nil =>
    cases h
    exact .nil
  | cons i is ih =>
    simp only [linkAll, bind_eq_ok, pure_eq_ok] at h
    obtain ⟨operands, hoperands, js', hjs', rfl⟩ := h
    exact .cons ⟨rfl, hoperands⟩ (ih hjs')

theorem forall₂_of_resolveAll {xs ys : List Operand}
    (h : resolveAll addresses parameters xs = .ok ys) :
    List.Forall₂ (fun x y => resolve addresses parameters x = .ok y) xs ys := by
  induction xs generalizing ys with
  | nil =>
    cases h
    exact .nil
  | cons x xs ih =>
    simp only [resolveAll, bind_eq_ok, pure_eq_ok] at h
    obtain ⟨y, hy, ys', hys', rfl⟩ := h
    exact .cons hy (ih hys')

theorem not_isSymbolic_of_resolve {x y : Operand} (h : resolve addresses parameters x = .ok y) :
    y.isSymbolic = false := by
  cases x with
  | label l =>
    simp only [resolve] at h
    split at h <;> cases h
    rfl
  | parameter function index =>
    simp only [resolve] at h
    split at h <;> cases h
    rfl
  | _ =>
    cases h
    rfl

theorem exists_of_mem_linkAll {is js : List Instruction}
    (h : linkAll addresses parameters is = .ok js) {j : Instruction} (hj : j ∈ js) :
    ∃ i ∈ is, j = { i with operands := j.operands } ∧
      ∀ y ∈ j.operands, ∃ x ∈ i.operands, resolve addresses parameters x = .ok y := by
  obtain ⟨i, hi, hsame, hoperands⟩ := exists_of_forall₂ (forall₂_of_linkAll h).flip hj
  exact ⟨i, hi, hsame, fun y hy => exists_of_forall₂ (forall₂_of_resolveAll hoperands).flip hy⟩

theorem getElem?_of_linkAll {is js : List Instruction}
    (h : linkAll addresses parameters is = .ok js) :
    js.length = is.length ∧ ∀ (n : Nat) (i : Instruction), is[n]? = some i → ∃ j,
      js[n]? = some j ∧ j.opcode = i.opcode ∧
        resolveAll addresses parameters i.operands = .ok j.operands := by
  have hall := forall₂_of_linkAll h
  refine ⟨hall.length_eq.symm, fun n i hi => ?_⟩
  obtain ⟨hn, rfl⟩ := List.getElem?_eq_some_iff.1 hi
  have hn' : n < js.length := hall.length_eq ▸ hn
  obtain ⟨hsame, hoperands⟩ := hall.get hn hn'
  have hopcode := congrArg Instruction.opcode hsame
  exact ⟨js[n], List.getElem?_eq_getElem hn', hopcode, hoperands⟩

theorem addresses_of_link (h : a.link = .ok linked) :
    ∃ addresses, a.addresses = .ok addresses ∧
      linkAll addresses a.parameters a.instructions = .ok linked.instructions := by
  simp only [link, bind_eq_ok, pure_eq_ok] at h
  obtain ⟨addresses, haddresses, js, hjs, rfl⟩ := h
  exact ⟨addresses, haddresses, hjs⟩

theorem isLinked_of_link (h : a.link = .ok linked) : ∀ j ∈ linked.instructions, j.isLinked := by
  intro j hj
  obtain ⟨addresses, -, hlink⟩ := addresses_of_link h
  obtain ⟨i, -, -, hoperands⟩ := exists_of_mem_linkAll hlink hj
  refine Instruction.isLinked_iff.2 fun y hy => ?_
  obtain ⟨x, -, hx⟩ := hoperands y hy
  exact not_isSymbolic_of_resolve hx

theorem size_of_link (h : a.link = .ok linked) : linked.size = a.size := by
  obtain ⟨addresses, -, hlink⟩ := addresses_of_link h
  exact (getElem?_of_linkAll hlink).1

/-- The code that a section was made from is placed at the start of the section. -/
theorem placed_of_link {file name : String} {comments : Bool} {code : Code}
    (haddresses : a.addresses = .ok addresses)
    (hlink : linkAll addresses a.parameters a.instructions = .ok linked.instructions)
    (hk : a.sections[k]? = some sect) (hcode : Code.toSection file comments name code = .ok sect) :
    (⟨linked, addresses, a.parameters⟩ : Image).Placed (a.start k) code ∧
      sect.size = code.size := by
  obtain ⟨is, his, rfl⟩ := Code.toSection_eq_ok hcode
  refine ⟨Image.placed_of_forall (fun n l hl => ?_) ?_, his.length_eq.symm⟩
  · obtain ⟨i, hi, hgives⟩ := Code.getElem?_of_toSection hcode hl
    have hn : n < is.length := (List.getElem?_eq_some_iff.1 hi).1
    obtain ⟨j, hj, hopcode, hoperands⟩ :=
      (getElem?_of_linkAll hlink).2 _ _ ((instructions_getElem? hk hn).trans hi)
    exact ⟨j, hj, hopcode.trans hgives.opcode, hgives.operands ▸ hoperands⟩
  · have hplacements := Code.placements_add (a.start k) 0 code
    rw [Nat.add_zero] at hplacements
    rw [hplacements]
    refine List.forall_mem_map.2 fun e he => ?_
    have hlookup := (lookup_of_addressesFrom haddresses).2 k _ hk e he
    simpa [start] using hlookup

end Assembly

end Chipwright
