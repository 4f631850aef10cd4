import Chipwright.Proofs.Lowering.Build

/-!
# Where the code of a program stands

The top-level code stands at the start of the linked program, the routines follow in the order
of the source, and the label for the end of the program is on the line after all of them.
-/
namespace Chipwright.Lowering

variable {ctx : Context} {p : Resolved.Program} {a : Assembly}

/-- The code of a build stands in a linked program. -/
structure Build.Layout (b : Build ctx p a) (image : Image) : Prop where
  parameters : image.parameters = a.parameters
  main : image.Placed 0 (b.code ++ exitCode p)
  mainSize : a.start 1 = Code.size (b.code ++ exitCode p)
  routine : ∀ k q, b.Settled k q →
    image.Placed (a.start (k + 1)) q.code ∧ a.start (k + 2) = a.start (k + 1) + Code.size q.code
  size : image.linked.size =
    if p.functions = [] then a.start 1 else a.start (p.functions.length + 1)
  finish : p.functions ≠ [] → image.addresses.lookup .programEnd = some image.linked.size

/-- Linking a build places all its code. -/
theorem Build.layout_of_addresses (b : Build ctx p a) {linked : Linked}
    {addresses : List (Label × Nat)} (haddresses : a.addresses = .ok addresses)
    (hlinked : Assembly.linkAll addresses a.parameters a.instructions = .ok linked.instructions) :
    b.Layout ⟨linked, addresses, a.parameters⟩ := by
  obtain ⟨main, hmain, hmainCode⟩ := b.mainSection
  obtain ⟨hmainPlaced, hmainSize⟩ := Assembly.placed_of_link haddresses hlinked hmain hmainCode
  have hstart : a.start 1 = Code.size (b.code ++ exitCode p) := by
    rw [Assembly.start_succ hmain, hmainSize]
    simp [Assembly.start]
  have hlength : linked.size = a.size := (Assembly.getElem?_of_linkAll hlinked).1
  have hsize : linked.size =
      if p.functions = [] then a.start 1 else a.start (p.functions.length + 1) := by
    rw [hlength, ← Assembly.start_length, b.length]
    split
    · rfl
    · rename_i hne
      obtain ⟨sect, hsect, hcode⟩ := b.endSection hne
      rw [Assembly.start_succ hsect, (Assembly.placed_of_link haddresses hlinked hsect hcode).2]
      simp
  refine ⟨rfl, hmainPlaced, hstart, ?_, hsize, ?_⟩
  · intro k q hq
    obtain ⟨sect, hsect, hcode⟩ := hq.sect
    obtain ⟨hroutine, hroutineSize⟩ := Assembly.placed_of_link haddresses hlinked hsect hcode
    exact ⟨hroutine, by rw [Assembly.start_succ hsect, hroutineSize]⟩
  · intro hne
    obtain ⟨sect, hsect, hcode⟩ := b.endSection hne
    have hend := (Assembly.placed_of_link haddresses hlinked hsect hcode).1.1
    rw [if_neg hne] at hsize
    simpa [hsize] using hend

theorem Build.layout_of_link (b : Build ctx p a) {linked : Linked} (hlink : a.link = .ok linked) :
    ∃ image, image.linked = linked ∧ b.Layout image := by
  obtain ⟨addresses, haddresses, hlinked⟩ := Assembly.addresses_of_link hlink
  exact ⟨_, rfl, b.layout_of_addresses haddresses hlinked⟩

/-- The top-level code ends where the program does, or a jump follows it that leads there. -/
theorem Build.Layout.exit {b : Build ctx p a} {image : Image} (h : b.Layout image) :
    Code.size b.code = image.linked.size ∨
      (∃ origin, image.HasLine (Code.size b.code) ⟨.jump, [.label .programEnd], origin⟩) ∧
        image.addresses.lookup .programEnd = some image.linked.size := by
  by_cases hnil : p.functions = []
  · left
    rw [h.size, if_pos hnil, h.mainSize, exitCode, if_pos hnil, List.append_nil]
  · right
    have hexit := (Image.placed_append.1 h.main).2
    rw [exitCode, if_neg hnil, Nat.zero_add] at hexit
    exact ⟨⟨_, hexit.1⟩, h.finish hnil⟩

/-! ## Parts of a routine -/

/-- The first line of the body of the routine with an index. -/
def Routine.bodyStart (a : Assembly) (k : Nat) (q : Routine) : Nat :=
  a.start (k + 1) + Code.size q.entry

/-- A line of a routine at which the return address has been saved. -/
def Routine.InBody (a : Assembly) (k : Nat) (q : Routine) (n : Nat) : Prop :=
  q.bodyStart a k ≤ n ∧ n < a.start (k + 2)

/-- The parts of a routine: the lines before the body, the body, and the line that returns. -/
structure Build.Layout.Parts (image : Image) (a : Assembly) (k : Nat) (q : Routine) : Prop where
  address : image.addresses.lookup (.function q.function.name) = some (a.start (k + 1))
  entry : image.Placed (a.start (k + 1)) q.entry
  body : image.Placed (q.bodyStart a k) q.body
  ret : image.HasLine (q.bodyStart a k + Code.size q.body) ⟨.jump, [.register q.ret], q.origin⟩
  finish : a.start (k + 2) = q.bodyStart a k + Code.size q.body + 1

namespace Build.Layout

variable {b : Build ctx p a} {image : Image} {k : Nat} {q : Routine}

theorem parts (h : b.Layout image) (hq : b.Settled k q) : Parts image a k q := by
  obtain ⟨hplaced, hsize⟩ := h.routine k q hq
  simp only [Routine.code, Origin.line, Image.placed_append, Code.size_append, Code.size_label,
    Code.size_note, Code.size_line, Code.size_nil, Nat.zero_add, Nat.add_zero] at hplaced hsize
  obtain ⟨⟨⟨⟨haddress, -⟩, hentry⟩, hbody⟩, hret, -⟩ := hplaced
  exact ⟨haddress, hentry, hbody, by rwa [Routine.bodyStart, Nat.add_assoc],
    by rw [hsize, Routine.bodyStart]; omega⟩

/-- A line of a routine saves the return address, belongs to the body, or returns. -/
theorem line_cases (h : b.Layout image) (hq : b.Settled k q) {n : Nat}
    (hn : a.Within (k + 1) n) :
    (n < q.bodyStart a k ∧ q.InBody a k (n + 1) ∧ makesCalls p q.function.name = true ∧
        image.HasLine n ⟨.move, [.register q.ret, .register .ra], q.origin⟩) ∨
      (∃ l, Piece.line l ∈ q.body ∧ image.HasLine n l ∧ q.InBody a k n ∧ q.InBody a k (n + 1)) ∨
      image.HasLine n ⟨.jump, [.register q.ret], q.origin⟩ ∧ q.InBody a k n ∧
        n + 1 = a.start (k + 2) := by
  obtain ⟨-, hentry, hbody, hret, hfinish⟩ := h.parts hq
  obtain ⟨s, hmade⟩ := hq.made
  obtain ⟨hfirst, hlast⟩ := hn
  rw [hfinish] at hlast
  rcases Nat.lt_or_ge n (q.bodyStart a k) with hlt | hge
  · refine Or.inl ⟨hlt, ?_⟩
    cases hcalls : makesCalls p q.function.name with
    | true =>
      have hsize : q.bodyStart a k = a.start (k + 1) + 1 := by
        rw [Routine.bodyStart, hmade.entry_eq hcalls]
        rfl
      obtain rfl : n = a.start (k + 1) := by omega
      rw [hmade.entry_eq hcalls] at hentry
      exact ⟨⟨by omega, by omega⟩, rfl, hentry.1⟩
    | false =>
      rw [Routine.bodyStart, (hmade.ret_eq hcalls).2] at hlt
      exact absurd hfirst (Nat.not_le.2 hlt)
  · right
    rcases Nat.lt_or_ge n (q.bodyStart a k + Code.size q.body) with hlt | hge'
    · obtain ⟨l, hl, hline⟩ := hbody.exists_hasLine hge hlt
      exact Or.inl ⟨l, hl, hline, ⟨hge, by omega⟩, ⟨by omega, by omega⟩⟩
    · obtain rfl : n = q.bodyStart a k + Code.size q.body := by omega
      exact Or.inr ⟨hret, ⟨hge, by omega⟩, hfinish.symm⟩

/-- A label of the body leads to a line of the routine. -/
theorem inBody_of_label (h : b.Layout image) (hq : b.Settled k q) {label : Label}
    (hlabel : Piece.label label ∈ q.body) :
    ∃ n, image.addresses.lookup label = some n ∧ q.InBody a k n := by
  obtain ⟨-, -, hbody, -, hfinish⟩ := h.parts hq
  obtain ⟨n, hn, hfirst, hlast⟩ := hbody.address hlabel
  exact ⟨n, hn, hfirst, by omega⟩

end Build.Layout

end Chipwright.Lowering
