import Chipwright.Proofs.Lexical.Resolution
import Chipwright.Proofs.Lowering.Resources
import Chipwright.Proofs.RegisterSeparation

/-!
# Lowering and linking fail at limits only

A program that can be resolved is lowered and linked, unless it exceeds a limit: there are too few
registers or lines, a slot has two names, or a loop should yield and does not; or a loop is so deep
that the search for its `yield` gives up. Nothing else can go wrong, since every label and every
parameter that linking looks up is there, exactly once.

What comes out fits into the chip. It holds no symbols, its jumps stay inside the program, and it
uses the registers that were asked for, and `ra`.

## Main definitions

* `Operand.Concrete`, `Instruction.Concrete`: the operands that a linked line may have
* `Linked.Sound`: the program fits into the chip

## Main statements

* `Assembly.exists_link`: linking finds what it looks up
* `Program.links_or_exceeds_limit`: a resolved program is linked, or exceeds a limit
-/
namespace Chipwright

variable {options : Options}

/-- An operand that a linked line may have at a place of a kind, in a program of a size. -/
inductive Operand.Concrete (registers : Register → Prop) (size : Nat) :
    OperandKind → Operand → Prop
  | target {r : Register} : registers r → Concrete registers size .register (.register r)
  | number (c : Literal) : Concrete registers size .value (.number c)
  | register {r : Register} : registers r → Concrete registers size .value (.register r)
  | device (slot : Slot) : Concrete registers size .device (.device slot)
  | property (text : String) : Concrete registers size .logicType (.name text)
  | name (text : String) : Concrete registers size .name (.name text)
  | line {n : Nat} : n ≤ size → Concrete registers size .line (.number (.int n))
  | through {r : Register} : registers r → Concrete registers size .line (.register r)

namespace Operand.Concrete

variable {registers : Register → Prop} {size : Nat} {kind : OperandKind} {x : Operand}

theorem accepts (h : x.Concrete registers size kind) : kind.accepts x = true := by
  cases h <;> rfl

theorem not_isSymbolic (h : x.Concrete registers size kind) : x.isSymbolic = false := by
  cases h <;> rfl

theorem known_register {r : Register} (h : (Operand.register r).Concrete registers size kind) :
    registers r := by
  cases h <;> assumption

end Operand.Concrete

/-- Every operand of an instruction is concrete and suits its place. -/
def Instruction.Concrete (registers : Register → Prop) (size : Nat) (i : Instruction) : Prop :=
  List.Forall₂ (fun kind x => x.Concrete registers size kind) i.opcode.operands i.operands

theorem Instruction.Concrete.wellFormed {registers : Register → Prop} {size : Nat} {i : Instruction}
    (h : i.Concrete registers size) : i.WellFormed :=
  ⟨h.length_eq.symm, fun _ hp => (List.forall₂_zip h hp).accepts⟩

/-! ### Linking -/

namespace Assembly

variable {a : Assembly} {addresses known : List (Label × Nat)}
  {parameters : List ((String × Int) × Register)} {y : Symbols} {size : Nat}

/-- Labels that are placed once each get addresses. -/
theorem exists_addressesFrom {offset : Nat} {sections : List Section}
    (h : (known.map Prod.fst ++ sections.flatMap fun s => s.labels.map Prod.fst).Nodup) :
    ∃ addresses, addressesFrom offset known sections = .ok addresses := by
  induction sections generalizing known offset with
  | nil => exact ⟨known, rfl⟩
  | cons s sections ih =>
    rw [List.flatMap_cons, ← List.append_assoc] at h
    obtain ⟨addresses, haddresses⟩ : ∃ addresses, addressesFrom (offset + s.size)
        (known ++ s.labels.map fun e => (e.1, offset + e.2)) sections = .ok addresses :=
      ih (by simpa [Function.comp_def] using h)
    refine ⟨addresses, ?_⟩
    rw [addressesFrom, addLabels_eq_ok (List.nodup_append'.1 h).1]
    exact haddresses

/-- No section ends after the program. -/
theorem start_le_size (a : Assembly) (k : Nat) : a.start k ≤ a.size := by
  have hsplit : a.sections.take k ++ a.sections.drop k = a.sections := List.take_append_drop ..
  have hsum : a.size = a.start k + ((a.sections.drop k).map Section.size).sum := by
    rw [size_eq_sum, start, ← List.sum_append, ← List.map_append, hsplit]
  omega

/-- The address of a label is in the program, or just after it. -/
theorem exists_address (h : a.addresses = .ok addresses)
    (hbound : ∀ sect ∈ a.sections, ∀ e ∈ sect.labels, e.2 ≤ sect.size) {l : Label}
    (hl : l ∈ a.labels.map Prod.fst) : ∃ n ≤ a.size, addresses.lookup l = some n := by
  obtain ⟨e, he, rfl⟩ := List.mem_map.1 hl
  obtain ⟨sect, hsect, he⟩ := List.mem_flatMap.1 he
  obtain ⟨k, hlt, rfl⟩ := List.getElem_of_mem hsect
  have hk := List.getElem?_eq_getElem hlt
  have hlookup := (lookup_of_addressesFrom h).2 k _ hk e he
  refine ⟨a.start k + e.2, ?_, by simpa [start] using hlookup⟩
  have hstart := a.start_le_size (k + 1)
  rw [start_succ hk] at hstart
  have := hbound _ hsect e he
  omega

section Known

/-! Every symbol that may be referred to is known to the linker. -/

variable (hlabels : ∀ l, y.labels l → ∃ n ≤ size, addresses.lookup l = some n)
  (hparameters : ∀ f index, y.parameters f index →
    ∃ r, y.registers r ∧ parameters.lookup (f, index) = some r)

include hlabels hparameters

theorem exists_resolve {kind : OperandKind} {x : Operand} (hx : x.Suits y kind) :
    ∃ z, resolve addresses parameters x = .ok z ∧ z.Concrete y.registers size kind := by
  cases hx with
  | target hr => exact ⟨_, rfl, .target hr⟩
  | parameter h =>
    obtain ⟨r, hr, hlookup⟩ := hparameters _ _ h
    exact ⟨.register r, by rw [resolve, hlookup], .target hr⟩
  | number c => exact ⟨_, rfl, .number c⟩
  | register hr => exact ⟨_, rfl, .register hr⟩
  | device slot => exact ⟨_, rfl, .device slot⟩
  | property text => exact ⟨_, rfl, .property text⟩
  | name text => exact ⟨_, rfl, .name text⟩
  | label h =>
    obtain ⟨n, hn, hlookup⟩ := hlabels _ h
    exact ⟨.number (.int n), by rw [resolve, hlookup], .line hn⟩
  | through hr => exact ⟨_, rfl, .through hr⟩

theorem exists_resolveAll {kinds : List OperandKind} {xs : List Operand}
    (hxs : List.Forall₂ (fun kind x => x.Suits y kind) kinds xs) :
    ∃ zs, resolveAll addresses parameters xs = .ok zs ∧
      List.Forall₂ (fun kind z => z.Concrete y.registers size kind) kinds zs := by
  induction hxs with
  | nil => exact ⟨[], rfl, .nil⟩
  | cons hx _ ih =>
    obtain ⟨z, hz, hconcrete⟩ := exists_resolve hlabels hparameters hx
    obtain ⟨zs, hzs, hall⟩ := ih
    refine ⟨z :: zs, ?_, .cons hconcrete hall⟩
    rw [resolveAll, hz, hzs]
    rfl

theorem exists_linkAll {is : List Instruction} (his : ∀ i ∈ is, i.Legal y) :
    ∃ js, linkAll addresses parameters is = .ok js ∧ ∀ j ∈ js, j.Concrete y.registers size := by
  induction is with
  | nil => exact ⟨[], rfl, by simp⟩
  | cons i is ih =>
    obtain ⟨hi, his⟩ := List.forall_mem_cons.1 his
    obtain ⟨operands, hoperands, hconcrete⟩ := exists_resolveAll hlabels hparameters hi
    obtain ⟨js, hjs, hall⟩ := ih his
    refine ⟨{ i with operands } :: js, ?_, List.forall_mem_cons.2 ⟨hconcrete, hall⟩⟩
    rw [linkAll, hoperands, hjs]
    rfl

end Known

/-- Linking finds what it looks up, if each label is placed once and each symbol is known. -/
theorem exists_link (hnodup : (a.labels.map Prod.fst).Nodup)
    (hbound : ∀ sect ∈ a.sections, ∀ e ∈ sect.labels, e.2 ≤ sect.size)
    (hlegal : ∀ i ∈ a.instructions, i.Legal y)
    (hlabels : ∀ l, y.labels l → l ∈ a.labels.map Prod.fst)
    (hparameters : ∀ f index, y.parameters f index →
      ∃ r, y.registers r ∧ a.parameters.lookup (f, index) = some r) :
    ∃ linked, a.link = .ok linked ∧ linked.size = a.size ∧
      ∀ j ∈ linked.instructions, j.Concrete y.registers linked.size := by
  obtain ⟨addresses, haddresses⟩ : ∃ addresses, a.addresses = .ok addresses := by
    refine exists_addressesFrom ?_
    rwa [labels, List.map_flatMap] at hnodup
  obtain ⟨js, hjs, hall⟩ := exists_linkAll
    (fun l hl => exists_address haddresses hbound (hlabels l hl)) hparameters hlegal
  have hlink : a.link = .ok ⟨js⟩ := by
    simp only [link, bind_eq_ok, pure_eq_ok]
    exact ⟨addresses, haddresses, js, hjs, rfl⟩
  have hsize := size_of_link hlink
  exact ⟨⟨js⟩, hlink, hsize, by rw [hsize]; exact hall⟩

end Assembly

/-! ### The linked program -/

/-- A linked program fits into the chip and keeps to the registers that it is said to use. -/
structure Linked.Sound (options : Options) (registers : List Register) (linked : Linked) :
    Prop where
  size_le : linked.size ≤ options.maxLines
  wellFormed : ∀ i ∈ linked.instructions, i.WellFormed
  isLinked : ∀ i ∈ linked.instructions, i.isLinked = true
  /-- Jumps lead to lines of the program, or past its end. -/
  lines : ∀ i ∈ linked.instructions, ∀ value,
    (OperandKind.line, Operand.number value) ∈ i.opcode.operands.zip i.operands →
      ∃ n : Nat, value = .int n ∧ n ≤ linked.size
  registers : ∀ i ∈ linked.instructions, ∀ r, Operand.register r ∈ i.operands →
    r ≠ .sp ∧ (r = .ra ∨ r ∈ registers ∧ r.index.val < options.registerCount)

theorem Linked.sound_of_concrete {used registers : List Register} {linked : Linked} {n : Nat}
    (hsize : linked.size ≤ options.maxLines) (hcount : (n : Int) = options.registerCount)
    (hused : ∀ r ∈ used, r ∈ Register.general n) (hregisters : ∀ r ∈ used, r ∈ registers)
    (h : ∀ i ∈ linked.instructions, i.Concrete (fun r => r = .ra ∨ r ∈ used) linked.size) :
    linked.Sound options registers := by
  refine ⟨hsize, fun i hi => (h i hi).wellFormed, fun i hi => ?_, fun i hi value hvalue => ?_,
    fun i hi r hr => ?_⟩
  · have hnone : ∀ x ∈ i.operands, x.isSymbolic = false := by
      intro x hx
      obtain ⟨k, hk, rfl⟩ := List.getElem_of_mem hx
      exact ((h i hi).get ((h i hi).length_eq ▸ hk) hk).not_isSymbolic
    simpa [Instruction.isLinked] using hnone
  · cases List.forall₂_zip (h i hi) hvalue with
    | line hn => exact ⟨_, rfl, hn⟩
  · obtain ⟨k, hk, heq⟩ := List.getElem_of_mem hr
    have hconcrete := (h i hi).get ((h i hi).length_eq ▸ hk) hk
    rw [List.get_eq_getElem, List.get_eq_getElem, heq] at hconcrete
    rcases hconcrete.known_register with rfl | hr
    · exact ⟨by decide, Or.inl rfl⟩
    · obtain ⟨hlt, hgeneral⟩ := Register.mem_general_iff.1 (hused r hr)
      refine ⟨?_, Or.inr ⟨hregisters r hr, by omega⟩⟩
      rintro rfl
      exact absurd hgeneral (by decide)

theorem Register.mem_sorted {rs : List Register} {r : Register} : r ∈ sorted rs ↔ r ∈ rs := by
  have hall : r ∈ all := List.mem_map.2 ⟨r.index, List.mem_finRange _, rfl⟩
  simp [sorted, hall]

open Lowering

theorem RegisterPool.size_of_ofCount {count : Int} {reserved : List Register} {size : Nat}
    (h : ofCount count reserved = .ok (.fresh size reserved)) : size = count.toNat := by
  unfold ofCount at h
  split at h
  · exact (congrArg RegisterPool.size (Except.ok.inj h)).symm
  · cases h

/-- What a resolved program is lowered to can be linked, and the operands of its lines suit their
places. -/
theorem Program.exists_wellFormed_link {file source : String} {strict : Bool} {limits : Limits}
    {p : Program} {r : Resolved.Program} {g : Generated}
    (hresolve : p.resolve source strict limits = .ok r) (h : (r.generate file options).2 = .ok g) :
    ∃ linked, g.assembly.link = .ok linked ∧ ∀ i ∈ linked.instructions, i.WellFormed := by
  have hp := wellScoped_of_resolve hresolve
  have hfit := callsFit_of_resolve hresolve
  obtain ⟨b, hpool, -⟩ := Resolved.Program.exists_build h
  have hsize : b.size = options.registerCount.toNat := RegisterPool.size_of_ofCount hpool
  obtain ⟨linked, hlink, -, hconcrete⟩ := Assembly.exists_link (b.nodup_labels hp)
    (fun sect hsect e he => b.position_le hp hfit hsize hsect he)
    (fun i hi => b.legal hp hfit hsize hi) (fun l hl => hl)
    (fun f index ⟨r, hr, hlookup⟩ => ⟨r, Or.inr hr, hlookup⟩)
  exact ⟨linked, hlink, fun i hi => (hconcrete i hi).wellFormed⟩

theorem Program.exists_link_of_generate {file source : String} {strict : Bool} {limits : Limits}
    {p : Program} {r : Resolved.Program} {g : Generated}
    (hresolve : p.resolve source strict limits = .ok r) (h : (r.generate file options).2 = .ok g) :
    ∃ linked, g.assembly.link = .ok linked :=
  (exists_wellFormed_link hresolve h).imp fun _ hlinked => hlinked.1

/-- A program that can be resolved is lowered and linked, unless it exceeds a limit of the chip or
of the options, or has a loop that is too deep to be searched for a `yield`. What comes out fits
into the chip. -/
theorem Program.links_or_exceeds_limit {file source : String} {strict : Bool} {limits : Limits}
    {options : Options} {p : Program} {r : Resolved.Program}
    (hresolve : p.resolve source strict limits = .ok r)
    (hcount : 1 ≤ options.registerCount ∧ options.registerCount ≤ Register.generalCount)
    (hlines : 0 ≤ options.maxLines) :
    (∃ e, (r.generate file options).2 = .error e ∧ e.isLimit = true) ∨
      ((r.generate file options).2 = .error .tooDeep ∧
        ∃ l ∈ r.loops, r.Deep options.limits.search (.block l.body)) ∨
      ∃ g linked, (r.generate file options).2 = .ok g ∧ g.assembly.link = .ok linked ∧
        linked.Sound options g.registers := by
  have hp := wellScoped_of_resolve hresolve
  have hfit := callsFit_of_resolve hresolve
  have hacyclic := acyclic_of_resolve hresolve
  cases hgenerate : (r.generate file options).2 with
  | error e =>
    rcases Resolved.Program.exceeds_of_generate hcount hlines hp hacyclic hgenerate with
      hlimit | ⟨rfl, hdeep⟩
    · exact Or.inl ⟨e, rfl, hlimit⟩
    · exact Or.inr (Or.inl ⟨rfl, hdeep⟩)
  | ok g =>
    obtain ⟨b, hpool, hregisters, hlength⟩ := Resolved.Program.exists_build hgenerate
    have hsize : b.size = options.registerCount.toNat := by
      rw [RegisterPool.ofCount, if_pos hcount] at hpool
      exact (congrArg RegisterPool.size (Except.ok.inj hpool)).symm
    obtain ⟨linked, hlink, hlinked, hconcrete⟩ := Assembly.exists_link (b.nodup_labels hp)
      (fun sect hsect e he => b.position_le hp hfit hsize hsect he)
      (fun i hi => b.legal hp hfit hsize hi) (fun l hl => hl)
      (fun f index ⟨r, hr, hlookup⟩ => ⟨r, Or.inr hr, hlookup⟩)
    refine Or.inr (Or.inr ⟨g, linked, rfl, hlink, ?_⟩)
    refine Linked.sound_of_concrete (hlinked ▸ hlength) (Int.toNat_of_nonneg (by omega))
      (b.accounted hsize).1.general (fun r hr => ?_) hconcrete
    rw [hregisters, Register.mem_sorted]
    exact hr

/-- The program `let x = 1; fn step(a, b) { if (a < b) { x = a + b; } else { x = b; } } loop {
yield; step(x, x * 2); }`. -/
def Program.stepping : Program where
  statements := [
    .define .first (.unplaced "x") (.literal .first (.int 1)),
    .function .first (.unplaced "step") [.unplaced "a", .unplaced "b"] .first [
      .ifElse .first (.binary .lt (.name (.unplaced "a")) (.name (.unplaced "b"))) .first
        [.assign (.unplaced "x") (.binary .add (.name (.unplaced "a")) (.name (.unplaced "b")))]
        .first
        [.assign (.unplaced "x") (.name (.unplaced "b"))]],
    .loop .first .first [
      .yield .first,
      .call (.unplaced "step") [.name (.unplaced "x"),
        .binary .mul (.name (.unplaced "x")) (.literal .first (.int 2))]]]

/-- With five registers the program is linked. With four, or with ten lines, it exceeds a
limit. -/
theorem Program.stepping_links : ∃ r, stepping.resolve "stepping" true = .ok r ∧
    (∃ g linked, (r.generate "stepping" { registerCount := 5 }).2 = .ok g ∧
      g.assembly.link = .ok linked ∧ linked.Sound { registerCount := 5 } g.registers) ∧
    (∃ e, (r.generate "stepping" { registerCount := 4 }).2 = .error e ∧ e.isLimit = true) ∧
    ∃ e, (r.generate "stepping" { maxLines := 10 }).2 = .error e ∧ e.isLimit = true := by
  have hsome : ((stepping.resolve "stepping" true).toOption.filter fun r =>
      (r.generate "stepping" { registerCount := 5 }).2.isOk ∧
        ∀ options ∈ ([{ registerCount := 4 }, { maxLines := 10 }] : List Options),
          ¬ (r.generate "stepping" options).2.isOk ∧
            FailsOnly (·.isLimit = true) (r.generate "stepping" options).2).isSome := by
    decide +kernel
  obtain ⟨r, hr, hfive, hfails⟩ := exists_of_isSome_filter hsome
  have hlimit : ∀ options ∈ ([{ registerCount := 4 }, { maxLines := 10 }] : List Options),
      ∃ e, (r.generate "stepping" options).2 = .error e ∧ e.isLimit = true := by
    intro options hoptions
    obtain ⟨hfails, honly⟩ := hfails options hoptions
    cases hgenerate : (r.generate "stepping" options).2 with
    | ok g => exact absurd (by rw [hgenerate]; rfl) hfails
    | error e => exact ⟨e, rfl, honly e hgenerate⟩
  refine ⟨r, hr, ?_, hlimit _ (by simp), hlimit _ (by simp)⟩
  rcases @links_or_exceeds_limit "stepping" _ _ _ { registerCount := 5 } _ _ hr (by decide)
    (by decide) with ⟨e, he, -⟩ | ⟨he, -⟩ | hlinks
  · rw [he] at hfive
    cases hfive
  · rw [he] at hfive
    cases hfive
  · exact hlinks

/-- If it is for none of the limits that there is no result, a search went too deep. -/
theorem Program.generate_eq_tooDeep {file source : String} {strict : Bool} {limits : Limits}
    {options : Options} {p : Program} {r : Resolved.Program}
    (hresolve : p.resolve source strict limits = .ok r)
    (hcount : 1 ≤ options.registerCount ∧ options.registerCount ≤ Register.generalCount)
    (hlines : 0 ≤ options.maxLines) (hfails : ¬ (r.generate file options).2.isOk)
    (hno : FailsOnly (·.isLimit = false) (r.generate file options).2) :
    (r.generate file options).2 = .error .tooDeep := by
  cases hgenerate : (r.generate file options).2 with
  | ok g => exact absurd (by rw [hgenerate]; rfl) hfails
  | error e =>
    rcases Resolved.Program.exceeds_of_generate hcount hlines (wellScoped_of_resolve hresolve)
      (acyclic_of_resolve hresolve) hgenerate with hlimit | ⟨rfl, -⟩
    · rw [hno e hgenerate] at hlimit
      cases hlimit
    · rfl

/-- Statements inside as many blocks as told. -/
def Stmt.nested : Nat → List Stmt → List Stmt
  | 0, body => body
  | n + 1, body => [.block .first (nested n body)]

/-- Twelve functions with ninety blocks each. The first one holds some statements, each other one
calls the one before, and a loop calls the last. -/
def Program.tower (inner : List Stmt) : Program where
  statements :=
    .function .first (.unplaced "f0") [] .first (Stmt.nested 90 inner) ::
      (List.range 11).map (fun i => .function .first (.unplaced s!"f{i + 1}") [] .first
        (Stmt.nested 90 [.call (.unplaced s!"f{i}") []])) ++
      [.loop .first .first [.call (.unplaced "f11") []]]

/-- The tower is no limit of the chip, but the search for a `yield` gives up. -/
theorem Program.tower_tooDeep :
    ∃ r, (tower [.write .first (.literal .first (.int 1)) (.direct .first .housing) "On"]).resolve
        "tower" true = .ok r ∧
      (r.generate "tower" {}).2 = .error .tooDeep ∧ Failure.tooDeep.isLimit = false := by
  have hsome : (((tower [.write .first (.literal .first (.int 1)) (.direct .first .housing)
      "On"]).resolve "tower" true).toOption.filter fun r =>
        ¬ (r.generate "tower" {}).2.isOk ∧
          FailsOnly (·.isLimit = false) (r.generate "tower" {}).2).isSome := by
    decide +kernel
  obtain ⟨r, hr, hfails, hno⟩ := exists_of_isSome_filter hsome
  exact ⟨r, hr, generate_eq_tooDeep hr (by decide) (by decide) hfails hno, rfl⟩

end Chipwright
