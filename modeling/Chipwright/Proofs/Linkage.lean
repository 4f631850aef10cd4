import Chipwright.Proofs.Linking

/-!
# What linking makes of sections

A section is written step by step: an instruction is emitted, or a label is placed. A `Script` is
such a list of steps, and what comes of linking sections can be told from their scripts alone.
Labels count the instructions that are emitted before them, in the scripts put one after another;
so a label at the end of a section is on the first line of the next section, or on the line after
the program. Labels that are given by their names (`Label.named`) are the same if the names are.

Linking keeps offsets in each section and adds the sizes of the sections before it. The proof does
away with the sections first: adding the labels of one section after another is adding the labels
of the joined scripts (`Assembly.addresses_of_writes`).

## Main definitions

* `Script.Writes`: the script gives the section
* `Script.LabelAt`: the label is placed once, after so many instructions
* `LinkError.Arises`: why sections with such scripts cannot be linked
* `Instruction.LinksTo`: what linking makes of an instruction

## Main statements

* `Assembly.link_of_writes`: when linking fails, and what it gives otherwise
-/
namespace Chipwright

/-- One step of writing a section. -/
inductive Section.Entry
  | emit (i : Instruction)
  | place (l : Label)

def Section.Entry.instruction? : Entry → Option Instruction
  | emit i => some i
  | place _ => none

def Section.Entry.label? : Entry → Option Label
  | emit _ => none
  | place l => some l

/-- What is written into sections, in the order of writing. -/
abbrev Script := List Section.Entry

/-- Writes at the end of a section. -/
def Section.write : Script → Section → Except LinkError Section
  | [], s => .ok s
  | .emit i :: script, s => write script (s.emit i)
  | .place l :: script, s => s.place l >>= write script

namespace Script

/-- The instructions that are emitted. -/
def instructions (script : Script) : List Instruction :=
  script.filterMap Section.Entry.instruction?

/-- The labels that are placed. -/
def labels (script : Script) : List Label := script.filterMap Section.Entry.label?

/-- The labels, each with the line it is on if the first instruction is on the given line. -/
def placements : Nat → Script → List (Label × Nat)
  | _, [] => []
  | n, .emit _ :: script => placements (n + 1) script
  | n, .place l :: script => (l, n) :: placements n script

/-- The script gives the section. -/
def Writes (script : Script) (s : Section) : Prop :=
  Section.write script { name := s.name } = .ok s

/-- A label is placed at one point, after so many instructions. -/
def LabelAt (script : Script) (l : Label) (line : Nat) : Prop :=
  ∃ before after, script = before ++ .place l :: after ∧ .place l ∉ before ++ after ∧
    line = (instructions before).length

end Script

/-- Why sections with the scripts cannot be linked. -/
inductive LinkError.Arises (scripts : List Script)
    (parameters : List ((String × Int) × Register)) : LinkError → Prop
  | inTwoSections {l : Label} {script₁ script₂ : Script} (two : [script₁, script₂].Sublist scripts)
      (first : .place l ∈ script₁) (second : .place l ∈ script₂) :
      Arises scripts parameters (.inTwoSections l)
  | undefined {l : Label} {i : Instruction} (emitted : .emit i ∈ scripts.flatten)
      (refers : .label l ∈ i.operands) (nowhere : .place l ∉ scripts.flatten) :
      Arises scripts parameters (.undefined l)
  | unallocated {f : String} {index : Int} {i : Instruction} (emitted : .emit i ∈ scripts.flatten)
      (refers : .parameter f index ∈ i.operands) (missing : parameters.lookup (f, index) = none) :
      Arises scripts parameters (.unallocated f index)

/-- What linking puts for an operand. -/
inductive Operand.LinksTo (script : Script) (parameters : List ((String × Int) × Register)) :
    Operand → Operand → Prop
  | concrete {x : Operand} : x.isSymbolic = false → LinksTo script parameters x x
  | label {l : Label} {line : Nat} : script.LabelAt l line →
      LinksTo script parameters (.label l) (.number (.int line))
  | parameter {f : String} {index : Int} {r : Register} : parameters.lookup (f, index) = some r →
      LinksTo script parameters (.parameter f index) (.register r)

/-- What linking puts for an instruction. -/
structure Instruction.LinksTo (script : Script) (parameters : List ((String × Int) × Register))
    (i j : Instruction) : Prop where
  opcode : j.opcode = i.opcode
  location : j.location = i.location
  origin : j.origin = i.origin
  comment : j.comment = i.comment
  operands : List.Forall₂ (Operand.LinksTo script parameters) i.operands j.operands

/-! ### Scripts -/

namespace Script

variable {script script₁ script₂ before after : Script} {l : Label} {i : Instruction} {n line : Nat}

@[simp] theorem instructions_emit :
    instructions (.emit i :: script) = i :: instructions script := rfl

@[simp] theorem instructions_place : instructions (.place l :: script) = instructions script := rfl

@[simp] theorem instructions_append :
    instructions (script₁ ++ script₂) = instructions script₁ ++ instructions script₂ :=
  List.filterMap_append

@[simp] theorem labels_emit : labels (.emit i :: script) = labels script := rfl

@[simp] theorem labels_place : labels (.place l :: script) = l :: labels script := rfl

@[simp] theorem labels_append :
    labels (script₁ ++ script₂) = labels script₁ ++ labels script₂ :=
  List.filterMap_append

theorem mem_instructions : i ∈ instructions script ↔ .emit i ∈ script := by
  induction script with
  | nil => simp [instructions]
  | cons entry script ih => cases entry <;> simp [ih]

theorem mem_labels : l ∈ labels script ↔ .place l ∈ script := by
  induction script with
  | nil => simp [labels]
  | cons entry script ih => cases entry <;> simp [ih]

theorem instructions_flatten (scripts : List Script) :
    instructions scripts.flatten = scripts.flatMap instructions :=
  List.filterMap_flatten

theorem labels_flatten (scripts : List Script) : labels scripts.flatten = scripts.flatMap labels :=
  List.filterMap_flatten

theorem placements_append : placements n (script₁ ++ script₂) =
    placements n script₁ ++ placements (n + (instructions script₁).length) script₂ := by
  induction script₁ generalizing n with
  | nil => rfl
  | cons entry script₁ ih =>
    cases entry with
    | emit i => simp [placements, ih, Nat.add_assoc, Nat.add_comm 1]
    | place l => simp [placements, ih]

theorem map_fst_placements : (placements n script).map Prod.fst = labels script := by
  induction script generalizing n with
  | nil => rfl
  | cons entry script ih => cases entry <;> simp [placements, ih]

theorem exists_place_of_mem_placements (h : (l, line) ∈ placements n script) :
    ∃ before after, script = before ++ .place l :: after ∧
      line = n + (instructions before).length := by
  induction script generalizing n with
  | nil => cases h
  | cons entry script ih =>
    cases entry with
    | emit i =>
      obtain ⟨before, after, rfl, rfl⟩ := ih h
      exact ⟨.emit i :: before, after, rfl, by simp; omega⟩
    | place l' =>
      rcases List.mem_cons.1 h with heq | h
      · cases heq
        exact ⟨[], script, rfl, rfl⟩
      · obtain ⟨before, after, rfl, rfl⟩ := ih h
        exact ⟨.place l' :: before, after, rfl, rfl⟩

/-- Where no label is placed twice, every placing is the only one of its label. -/
theorem labelAt_of_nodup (hnodup : (labels (before ++ .place l :: after)).Nodup) :
    LabelAt (before ++ .place l :: after) l (instructions before).length := by
  refine ⟨before, after, rfl, ?_, rfl⟩
  rw [labels_append, labels_place, List.nodup_middle, List.nodup_cons] at hnodup
  rw [← mem_labels, labels_append]
  exact hnodup.1

theorem labelAt_of_lookup (hnodup : (labels script).Nodup)
    (h : (placements 0 script).lookup l = some line) : LabelAt script l line := by
  obtain ⟨before, after, rfl, rfl⟩ := exists_place_of_mem_placements (mem_of_lookup h)
  rw [Nat.zero_add]
  exact labelAt_of_nodup hnodup

theorem notMem_of_lookup (h : (placements n script).lookup l = none) : .place l ∉ script := by
  rw [← mem_labels, ← map_fst_placements (n := n), List.mem_map]
  rintro ⟨e, he, rfl⟩
  simpa using List.lookup_eq_none_iff.1 h e he

/-- A label that the joined scripts place twice is placed in two of them. -/
theorem exists_two_of_sublist {scripts : List Script}
    (hnodup : ∀ script ∈ scripts, (labels script).Nodup)
    (h : [l, l].Sublist (scripts.flatMap labels)) :
    ∃ script₁ script₂, [script₁, script₂].Sublist scripts ∧
      .place l ∈ script₁ ∧ .place l ∈ script₂ := by
  induction scripts with
  | nil => cases h
  | cons script scripts ih =>
    obtain ⟨hscript, hscripts⟩ := List.forall_mem_cons.1 hnodup
    rw [List.flatMap_cons, List.sublist_append_iff] at h
    obtain ⟨front, back, heq, hfront, hback⟩ := h
    -- Of the two placings, none, one or both are in the first script.
    rcases front with _ | ⟨first, _ | ⟨second, front⟩⟩
    · obtain rfl : [l, l] = back := heq
      obtain ⟨script₁, script₂, htwo, hmem⟩ := ih hscripts hback
      exact ⟨script₁, script₂, htwo.cons script, hmem⟩
    · obtain ⟨rfl, rfl⟩ : l = first ∧ [l] = back := by simpa using heq
      obtain ⟨script₂, hmem, hlabel⟩ := List.mem_flatMap.1 (List.singleton_sublist.1 hback)
      exact ⟨script, script₂, (List.singleton_sublist.2 hmem).cons_cons script,
        mem_labels.1 (List.singleton_sublist.1 hfront), mem_labels.1 hlabel⟩
    · obtain ⟨rfl, rfl, rfl, -⟩ : l = first ∧ l = second ∧ front = [] ∧ back = [] := by
        simpa using heq
      exact absurd hfront (List.nodup_iff_sublist.1 hscript l)

end Script

/-! ### Sections -/

/-- Writing adds the instructions and the labels of the script, and no label for a second time. -/
theorem Section.write_eq_ok {script : Script} {s s' : Section} (h : s.write script = .ok s')
    (hnodup : (s.labels.map Prod.fst).Nodup) :
    s'.instructions = s.instructions ++ script.instructions ∧
      s'.labels = s.labels ++ script.placements s.size ∧ (s'.labels.map Prod.fst).Nodup := by
  induction script generalizing s with
  | nil =>
    cases h
    exact ⟨(List.append_nil _).symm, (List.append_nil _).symm, hnodup⟩
  | cons entry script ih =>
    cases entry with
    | emit i =>
      obtain ⟨hinstructions, hlabels, hnodup⟩ := ih (s := s.emit i) h hnodup
      refine ⟨?_, ?_, hnodup⟩
      · simpa [emit] using hinstructions
      · simpa [emit, size, Script.placements] using hlabels
    | place l =>
      rw [write, bind_eq_ok] at h
      obtain ⟨s₁, hplace, h⟩ := h
      obtain ⟨hnew, rfl⟩ := place_eq_ok.1 hplace
      have hnodup₁ : ((s.labels ++ [(l, s.size)]).map Prod.fst).Nodup := by
        rw [List.map_append, List.nodup_append']
        exact ⟨hnodup, List.nodup_singleton _, by simpa using hnew⟩
      obtain ⟨hinstructions, hlabels, hnodup⟩ := ih h hnodup₁
      exact ⟨hinstructions, by simpa [size, Script.placements] using hlabels, hnodup⟩

namespace Script.Writes

variable {script : Script} {s : Section}

theorem instructions_eq (h : script.Writes s) : s.instructions = script.instructions :=
  (Section.write_eq_ok h List.nodup_nil).1

theorem labels_eq (h : script.Writes s) : s.labels = script.placements 0 :=
  (Section.write_eq_ok h List.nodup_nil).2.1

theorem nodup (h : script.Writes s) : script.labels.Nodup := by
  have hnodup := (Section.write_eq_ok h List.nodup_nil).2.2
  rwa [h.labels_eq, map_fst_placements] at hnodup

end Script.Writes

namespace Assembly

variable {a : Assembly} {scripts : List Script} {known addresses : List (Label × Nat)}
  {parameters : List ((String × Int) × Register)} {offset : Nat}

/-! ### Addresses -/

theorem addLabels_append {labels labels' : List (Label × Nat)} :
    addLabels offset known (labels ++ labels') =
      addLabels offset known labels >>= fun known' => addLabels offset known' labels' := by
  induction labels generalizing known with
  | nil => rfl
  | cons e labels ih =>
    obtain ⟨l, position⟩ := e
    simp only [List.cons_append, addLabels]
    split
    · rfl
    · exact ih

/-- The offset of a section may as well be counted in its script. -/
theorem addLabels_placements {script : Script} {n : Nat} :
    addLabels offset known (script.placements n) =
      addLabels 0 known (script.placements (offset + n)) := by
  induction script generalizing n known with
  | nil => rfl
  | cons entry script ih =>
    cases entry with
    | emit i => exact ih
    | place l => simp only [Script.placements, addLabels, ih, Nat.zero_add]

/-- Adding the labels of sections one after another is adding those of the joined scripts. -/
theorem addressesFrom_of_writes {sections : List Section}
    (h : List.Forall₂ Script.Writes scripts sections) :
    addressesFrom offset known sections =
      addLabels 0 known (Script.placements offset scripts.flatten) := by
  induction h generalizing offset known with
  | nil => rfl
  | @cons script s scripts sections hscript _ ih =>
    have hsize : s.size = (Script.instructions script).length := by
      rw [Section.size, hscript.instructions_eq]
    have hadd : addLabels offset known s.labels =
        addLabels 0 known (Script.placements offset script) := by
      rw [hscript.labels_eq, addLabels_placements, Nat.add_zero]
    rw [addressesFrom, List.flatten_cons, Script.placements_append, addLabels_append, hadd, ← hsize]
    cases addLabels 0 known (Script.placements offset script) with
    | error e => rfl
    | ok known' => exact ih

/-- The only reason not to add labels is one that is there already. -/
theorem failsOnly_addLabels {labels : List (Label × Nat)} :
    FailsOnly (fun e => ∃ l, e = .inTwoSections l ∧
        [l, l].Sublist (known.map Prod.fst ++ labels.map Prod.fst))
      (addLabels offset known labels) := by
  induction labels generalizing known with
  | nil => exact .ok _
  | cons e labels ih =>
    obtain ⟨l, position⟩ := e
    rw [addLabels]
    split
    · rename_i hsome
      have hmem : l ∈ known.map Prod.fst := by simpa [List.lookup_isSome_iff] using hsome
      refine .error ⟨l, rfl, ?_⟩
      exact (List.singleton_sublist.2 hmem).append (List.singleton_sublist.2 (by simp))
    · have hkeys : (known ++ [(l, offset + position)]).map Prod.fst ++ labels.map Prod.fst =
          known.map Prod.fst ++ ((l, position) :: labels).map Prod.fst := by simp
      rw [← hkeys]
      exact ih

theorem nodup_of_addLabels {labels known' : List (Label × Nat)}
    (hknown : (known.map Prod.fst).Nodup) (h : addLabels offset known labels = .ok known') :
    (known.map Prod.fst ++ labels.map Prod.fst).Nodup := by
  induction labels generalizing known with
  | nil => simpa using hknown
  | cons e labels ih =>
    obtain ⟨l, position⟩ := e
    rw [addLabels] at h
    split at h
    case isTrue => cases h
    case isFalse hnone =>
      have hnew : l ∉ known.map Prod.fst := by simpa [List.lookup_isSome_iff] using hnone
      have hknown' : ((known ++ [(l, offset + position)]).map Prod.fst).Nodup := by
        rw [List.map_append, List.nodup_append']
        exact ⟨hknown, List.nodup_singleton _, by simpa using hnew⟩
      simpa using ih hknown' h

/-- Labels have addresses if none is placed twice, and then they are those of the joined
scripts. -/
theorem addresses_of_writes (h : List.Forall₂ Script.Writes scripts a.sections) :
    a.addresses = .ok addresses ↔
      (Script.labels scripts.flatten).Nodup ∧ addresses = Script.placements 0 scripts.flatten := by
  rw [Assembly.addresses, addressesFrom_of_writes h, ← Script.map_fst_placements (n := 0)]
  constructor
  · intro h
    have hnodup := nodup_of_addLabels (by simp) h
    rw [addLabels_eq_ok hnodup] at h
    cases h
    simpa using hnodup
  · rintro ⟨hnodup, rfl⟩
    rw [addLabels_eq_ok (by simpa using hnodup)]
    simp

theorem failsOnly_addresses (h : List.Forall₂ Script.Writes scripts a.sections) :
    FailsOnly (LinkError.Arises scripts a.parameters) a.addresses := by
  have hnodup : ∀ script ∈ scripts, script.labels.Nodup := by
    intro script hscript
    obtain ⟨s, -, hwrites⟩ := exists_of_forall₂ h hscript
    exact hwrites.nodup
  intro e he
  rw [Assembly.addresses, addressesFrom_of_writes h] at he
  obtain ⟨l, rfl, htwice⟩ := failsOnly_addLabels e he
  rw [Script.map_fst_placements, Script.labels_flatten] at htwice
  obtain ⟨script₁, script₂, htwo, h₁, h₂⟩ := Script.exists_two_of_sublist hnodup htwice
  exact .inTwoSections htwo h₁ h₂

/-! ### Operands -/

theorem linksTo_of_resolve {script : Script} {x y : Operand} (hnodup : script.labels.Nodup)
    (h : resolve (script.placements 0) parameters x = .ok y) : x.LinksTo script parameters y := by
  cases x with
  | label l =>
    rw [resolve] at h
    split at h <;> cases h
    rename_i line hline
    exact .label (Script.labelAt_of_lookup hnodup hline)
  | parameter f index =>
    rw [resolve] at h
    split at h <;> cases h
    rename_i r hr
    exact .parameter hr
  | _ =>
    cases h
    exact .concrete rfl

theorem failsOnly_resolve {i : Instruction} {x : Operand} (hi : .emit i ∈ scripts.flatten)
    (hx : x ∈ i.operands) : FailsOnly (LinkError.Arises scripts parameters)
      (resolve (Script.placements 0 scripts.flatten) parameters x) := by
  cases x with
  | label l =>
    rw [resolve]
    split
    · exact .ok _
    · rename_i hnone
      exact .error (.undefined hi hx (Script.notMem_of_lookup hnone))
  | parameter f index =>
    rw [resolve]
    split
    · exact .ok _
    · rename_i hnone
      exact .error (.unallocated hi hx hnone)
  | _ => exact .ok _

section Failures

variable {P : LinkError → Prop}

theorem failsOnly_resolveAll {xs : List Operand}
    (h : ∀ x ∈ xs, FailsOnly P (resolve addresses parameters x)) :
    FailsOnly P (resolveAll addresses parameters xs) := by
  induction xs with
  | nil => exact .ok _
  | cons x xs ih =>
    obtain ⟨hx, hxs⟩ := List.forall_mem_cons.1 h
    exact hx.bind fun y _ => (ih hxs).bind fun ys _ => .ok _

theorem failsOnly_linkAll {is : List Instruction}
    (h : ∀ i ∈ is, ∀ x ∈ i.operands, FailsOnly P (resolve addresses parameters x)) :
    FailsOnly P (linkAll addresses parameters is) := by
  induction is with
  | nil => exact .ok _
  | cons i is ih =>
    obtain ⟨hi, his⟩ := List.forall_mem_cons.1 h
    exact (failsOnly_resolveAll hi).bind fun operands _ => (ih his).bind fun js _ => .ok _

end Failures

end Assembly

section Fitting

variable {script : Script} {parameters : List ((String × Int) × Register)}

/-- What is put for an operand fits where the operand does. -/
theorem Operand.LinksTo.accepts {x y : Operand} {kind : OperandKind}
    (h : x.LinksTo script parameters y) (hx : kind.accepts x = true) : kind.accepts y = true := by
  cases h with
  | concrete _ => exact hx
  | label _ => cases kind <;> first | rfl | cases hx
  | parameter _ => cases kind <;> first | rfl | cases hx

theorem Operand.forall₂_accepts_of_linksTo {kinds : List OperandKind} {xs ys : List Operand}
    (hkinds : List.Forall₂ (fun kind x => kind.accepts x = true) kinds xs)
    (hlinks : List.Forall₂ (LinksTo script parameters) xs ys) :
    List.Forall₂ (fun kind y => kind.accepts y = true) kinds ys := by
  induction hlinks generalizing kinds with
  | nil => exact hkinds
  | cons hxy _ ih =>
    cases hkinds with
    | cons hx hrest => exact .cons (hxy.accepts hx) (ih hrest)

theorem Instruction.LinksTo.wellFormed {i j : Instruction} (h : i.LinksTo script parameters j)
    (hi : i.WellFormed) : j.WellFormed := by
  obtain ⟨hcount, hfit⟩ := hi
  have hall := Operand.forall₂_accepts_of_linksTo
    (List.forall₂_iff_zip.2 ⟨hcount.symm, fun hp => hfit _ hp⟩) h.operands
  rw [← h.opcode] at hall
  exact ⟨hall.length_eq.symm, fun _ hp => List.forall₂_zip hall hp⟩

end Fitting

/-! ### Linking -/

namespace Assembly

variable {a : Assembly} {scripts : List Script} {parameters : List ((String × Int) × Register)}

theorem instructions_of_writes (h : List.Forall₂ Script.Writes scripts a.sections) :
    a.instructions = Script.instructions scripts.flatten := by
  rw [Assembly.instructions, Script.instructions_flatten]
  generalize a.sections = sections at h
  induction h with
  | nil => rfl
  | cons hscript _ ih => rw [List.flatMap_cons, List.flatMap_cons, hscript.instructions_eq, ih]

theorem failsOnly_link (h : List.Forall₂ Script.Writes scripts a.sections) :
    FailsOnly (LinkError.Arises scripts a.parameters) a.link := by
  refine (failsOnly_addresses h).bind fun addresses haddresses => ?_
  obtain ⟨-, rfl⟩ := (addresses_of_writes h).1 haddresses
  refine (failsOnly_linkAll fun i hi x hx => ?_).bind fun js _ => .ok _
  rw [instructions_of_writes h, Script.mem_instructions] at hi
  exact failsOnly_resolve hi hx

/-- What is linked has labels that are placed once each, and its instructions are those that the
scripts say. -/
theorem linksTo_of_link {linked : Linked} (h : List.Forall₂ Script.Writes scripts a.sections)
    (hlink : a.link = .ok linked) :
    (Script.labels scripts.flatten).Nodup ∧
      List.Forall₂ (Instruction.LinksTo scripts.flatten a.parameters)
        (Script.instructions scripts.flatten) linked.instructions := by
  obtain ⟨addresses, haddresses, hall⟩ := addresses_of_link hlink
  obtain ⟨hnodup, rfl⟩ := (addresses_of_writes h).1 haddresses
  rw [instructions_of_writes h] at hall
  refine ⟨hnodup, (forall₂_of_linkAll hall).imp fun i j hij => ?_⟩
  obtain ⟨hsame, hoperands⟩ := hij
  have hoperands := (forall₂_of_resolveAll hoperands).imp fun x y hxy =>
    linksTo_of_resolve hnodup hxy
  rw [hsame]
  exact ⟨rfl, rfl, rfl, rfl, hoperands⟩

/-- Nothing is wrong with scripts whose sections can be linked. -/
theorem not_arises {linked : Linked} {e : LinkError}
    (hnodup : (Script.labels scripts.flatten).Nodup)
    (hlinks : List.Forall₂ (Instruction.LinksTo scripts.flatten parameters)
      (Script.instructions scripts.flatten) linked.instructions) :
    ¬ LinkError.Arises scripts parameters e := by
  intro harises
  cases harises with
  | inTwoSections two first second =>
    rw [Script.labels_flatten, List.nodup_flatMap] at hnodup
    have hdisjoint := List.pairwise_iff_forall_sublist.1 hnodup.2 two
    exact hdisjoint (Script.mem_labels.2 first) (Script.mem_labels.2 second)
  | undefined emitted refers nowhere =>
    obtain ⟨j, -, hij⟩ := exists_of_forall₂ hlinks (Script.mem_instructions.2 emitted)
    obtain ⟨y, -, hy⟩ := exists_of_forall₂ hij.operands refers
    cases hy with
    | concrete hconcrete => cases hconcrete
    | label hline =>
      obtain ⟨before, after, heq, -⟩ := hline
      exact nowhere (heq ▸ List.mem_append_right before List.mem_cons_self)
  | unallocated emitted refers missing =>
    obtain ⟨j, -, hij⟩ := exists_of_forall₂ hlinks (Script.mem_instructions.2 emitted)
    obtain ⟨y, -, hy⟩ := exists_of_forall₂ hij.operands refers
    cases hy with
    | concrete hconcrete => cases hconcrete
    | parameter hr =>
      rw [missing] at hr
      cases hr

/-- Linking sections that are written by scripts.

It fails exactly if a label is placed in two sections, or if an instruction refers to a label that
is placed nowhere or to a parameter without a register, and the error says which. Otherwise each
instruction has its operands replaced by what they stand for, and nothing else is changed; operands
that fit their places still do. A label at the end of a section is on the line after it. -/
theorem link_of_writes (h : List.Forall₂ Script.Writes scripts a.sections) :
    ((∃ e, a.link = .error e) ↔ ∃ e, LinkError.Arises scripts a.parameters e) ∧
      (∀ e, a.link = .error e → LinkError.Arises scripts a.parameters e) ∧
      ∀ linked, a.link = .ok linked →
        List.Forall₂ (Instruction.LinksTo scripts.flatten a.parameters)
            (Script.instructions scripts.flatten) linked.instructions ∧
          ((∀ i ∈ Script.instructions scripts.flatten, i.WellFormed) →
            ∀ j ∈ linked.instructions, j.WellFormed) ∧
          ∀ before script l after, scripts = before ++ (script ++ [.place l]) :: after →
            Script.LabelAt scripts.flatten l
              (Script.instructions (before ++ [script]).flatten).length := by
  refine ⟨⟨?_, ?_⟩, failsOnly_link h, fun linked hlink => ?_⟩
  · rintro ⟨e, he⟩
    exact ⟨e, failsOnly_link h e he⟩
  · rintro ⟨e, harises⟩
    cases hlink : a.link with
    | error e' => exact ⟨e', rfl⟩
    | ok linked =>
      obtain ⟨hnodup, hlinks⟩ := linksTo_of_link h hlink
      exact absurd harises (not_arises hnodup hlinks)
  · obtain ⟨hnodup, hlinks⟩ := linksTo_of_link h hlink
    refine ⟨hlinks, fun hwellFormed j hj => ?_, ?_⟩
    · obtain ⟨i, hi, hij⟩ := exists_of_forall₂ hlinks.flip hj
      exact hij.wellFormed (hwellFormed i hi)
    · rintro before script l after rfl
      have hsplit : (before ++ (script ++ [.place l]) :: after).flatten =
          (before ++ [script]).flatten ++ .place l :: after.flatten := by simp
      rw [hsplit] at hnodup ⊢
      exact Script.labelAt_of_nodup hnodup

/-- Top-level code that calls a function with a number. -/
def caller : List Instruction :=
  [{ opcode := .move, operands := [.parameter "double" 0, .number (.int 21)] },
    { opcode := .jumpAndLink, operands := [.label (.function "double")], comment := "double(21)" },
    { opcode := .jump, operands := [.label .programEnd] }]

/-- A function that doubles its parameter. -/
def doubler : List Instruction :=
  [{ opcode := .add,
      operands := [.parameter "double" 0, .parameter "double" 0, .parameter "double" 0] },
    { opcode := .jump, operands := [.register .ra] }]

/-- The register of the parameter. -/
def argument : Register := ⟨⟨3, by decide⟩⟩

/-- The two as sections, with an empty one between them. -/
def doubling : Assembly where
  sections := [⟨"main", caller, [(.named "padding", 3)]⟩, ⟨"padding", [], []⟩,
    ⟨"double", doubler, [(.function "double", 0), (.programEnd, 2)]⟩]
  parameters := [(("double", 0), argument)]

def doublingScripts : List Script :=
  [caller.map .emit ++ [.place (.named "padding")], [],
    .place (.function "double") :: doubler.map .emit ++ [.place .programEnd]]

theorem link_of_writes_doubling :
    List.Forall₂ Script.Writes doublingScripts doubling.sections ∧
      ∃ linked, doubling.link = .ok linked ∧
        linked.instructions.map (·.operands) =
          [[.register argument, .number (.int 21)], [.number (.int 3)], [.number (.int 5)],
            [.register argument, .register argument, .register argument], [.register .ra]] ∧
        List.Forall₂ (Instruction.LinksTo doublingScripts.flatten doubling.parameters)
          (caller ++ doubler) linked.instructions ∧
        Script.LabelAt doublingScripts.flatten (.named "padding") 3 := by
  have hwrites : List.Forall₂ Script.Writes doublingScripts doubling.sections :=
    .cons rfl (.cons rfl (.cons rfl .nil))
  have hoperands : doubling.link.toOption.map (·.instructions.map (·.operands)) =
      some [[.register argument, .number (.int 21)], [.number (.int 3)], [.number (.int 5)],
        [.register argument, .register argument, .register argument], [.register .ra]] := by decide
  obtain ⟨linked, hlinked, hoperands⟩ := Option.map_eq_some_iff.1 hoperands
  have hlink := toOption_eq_some.1 hlinked
  obtain ⟨hlinks, -, hend⟩ := (link_of_writes hwrites).2.2 linked hlink
  exact ⟨hwrites, linked, hlink, hoperands, hlinks, hend [] (caller.map .emit) _ _ rfl⟩

end Assembly

end Chipwright
