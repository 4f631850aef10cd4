import Chipwright.Proofs.Annotation.Pieces
import Chipwright.Proofs.LinkSafety

/-!
# Aliases

A line that names a device stands at the top level and ends its statement. Left out, it changes
nothing but the numbers of the lines after it: labels move up, and so do the jumps to them.
-/
namespace Chipwright

namespace Instruction

variable {is : List Instruction}

/-- The line names a device. -/
def isAlias (i : Instruction) : Bool := i.opcode = .nameDevice

/-- The number of aliases among the first `n` lines. -/
def aliasesBefore (is : List Instruction) (n : Nat) : Nat := (is.take n).countP isAlias

/-- The number of a line when aliases are left out. -/
def renumbered (is : List Instruction) (n : Nat) : Nat := n - aliasesBefore is n

/-- Labels with the numbers that their lines have when aliases are left out. -/
def renumberedLabels (is : List Instruction) (labels : List (Label × Nat)) : List (Label × Nat) :=
  labels.map fun e => (e.1, renumbered is e.2)

/-- The lines that are no aliases. -/
def unaliased (is : List Instruction) : List Instruction := is.filter (!·.isAlias)

theorem aliasesBefore_le (is : List Instruction) (n : Nat) : aliasesBefore is n ≤ n :=
  List.countP_le_length.trans (List.length_take_le n is)

theorem aliasesBefore_append_left {n : Nat} (h : n ≤ is.length) (js : List Instruction) :
    aliasesBefore (is ++ js) n = aliasesBefore is n := by
  rw [aliasesBefore, List.take_append_of_le_length h, aliasesBefore]

theorem aliasesBefore_append_right (is js : List Instruction) (n : Nat) :
    aliasesBefore (is ++ js) (is.length + n) =
      aliasesBefore is is.length + aliasesBefore js n := by
  rw [aliasesBefore, List.take_length_add_append, List.countP_append, aliasesBefore,
    List.take_length, aliasesBefore]

theorem renumbered_append_left {n : Nat} (h : n ≤ is.length) (js : List Instruction) :
    renumbered (is ++ js) n = renumbered is n := by
  rw [renumbered, aliasesBefore_append_left h, renumbered]

theorem renumbered_append_right (is js : List Instruction) (n : Nat) :
    renumbered (is ++ js) (is.length + n) = renumbered is is.length + renumbered js n := by
  have his := aliasesBefore_le is is.length
  have hjs := aliasesBefore_le js n
  simp only [renumbered, aliasesBefore_append_right]
  omega

/-- A line is renumbered like the start of its part of the program, and within that part. -/
theorem renumbered_within {before js rest : List Instruction} {n : Nat}
    (his : is = before ++ (js ++ rest)) (hn : n ≤ js.length) :
    renumbered is (before.length + n) = renumbered is before.length + renumbered js n := by
  rw [his, renumbered_append_right, renumbered_append_left hn, renumbered_append_left le_rfl]

theorem renumbered_length (is : List Instruction) :
    renumbered is is.length = (unaliased is).length := by
  have hcount := List.length_eq_countP_add_countP isAlias (l := is)
  have hfilter : (unaliased is).length = is.countP fun i => ¬ i.isAlias := by
    simp [unaliased, List.countP_eq_length_filter]
  simp only [renumbered, aliasesBefore, List.take_length]
  omega

/-- Labels stay where they are when lines are added at the end. -/
theorem renumberedLabels_append {labels : List (Label × Nat)} (h : ∀ e ∈ labels, e.2 ≤ is.length)
    (js : List Instruction) : renumberedLabels (is ++ js) labels = renumberedLabels is labels :=
  List.map_congr_left fun e he => by rw [renumbered_append_left (h e he)]

theorem lookup_renumberedLabels (is : List Instruction) (labels : List (Label × Nat)) (l : Label) :
    (renumberedLabels is labels).lookup l = (labels.lookup l).map (renumbered is) := by
  induction labels with
  | nil => rfl
  | cons e es ih =>
    rw [renumberedLabels, List.map_cons, List.lookup_cons, List.lookup_cons]
    cases l == e.1 with
    | true => rfl
    | false => exact ih

end Instruction

open Instruction (renumbered renumberedLabels unaliased aliasesBefore)

namespace Section

/-- Aliases are left out, and labels move up. -/
def withoutAliases (s : Section) : Section where
  name := s.name
  instructions := unaliased s.instructions
  labels := renumberedLabels s.instructions s.labels

variable {s : Section}

/-- No label stands past the end. -/
def Bounded (s : Section) : Prop := ∀ e ∈ s.labels, e.2 ≤ s.size

theorem Bounded.emit (h : s.Bounded) (i : Instruction) : (s.emit i).Bounded := by
  intro e he
  have hle : e.2 ≤ s.size := h e he
  simp only [Section.emit, size, List.length_append] at hle ⊢
  omega

theorem withoutAliases_emit (h : s.Bounded) {i : Instruction} (hi : i.isAlias = false) :
    (s.emit i).withoutAliases = s.withoutAliases.emit i := by
  simp [withoutAliases, Section.emit, Instruction.renumberedLabels_append h, unaliased, hi]

theorem withoutAliases_emit_alias (h : s.Bounded) {i : Instruction} (hi : i.isAlias = true) :
    (s.emit i).withoutAliases = s.withoutAliases := by
  simp [withoutAliases, Section.emit, Instruction.renumberedLabels_append h, unaliased, hi]

end Section

namespace Lowering

/-! ## Code -/

/-- Code without the lines that name devices. Each of them ends its statement. -/
inductive Code.Unaliased : Code → Code → Prop
  | nil : Unaliased [] []
  | keep {piece : Piece} {code code' : Code} :
    (∀ l, piece = .line l → l.opcode ≠ .nameDevice) → Unaliased code code' →
      Unaliased (piece :: code) (piece :: code')
  | drop {l : Line} {code code' : Code} : l.opcode = .nameDevice → Unaliased code code' →
      Unaliased (.line l :: .finish :: code) (.finish :: code')

namespace Code

variable {code code' code₁ code₁' : Code}

theorem Unaliased.append (h : Unaliased code code') (h₁ : Unaliased code₁ code₁') :
    Unaliased (code ++ code₁) (code' ++ code₁') := by
  induction h with
  | nil => exact h₁
  | keep hpiece _ ih => exact .keep hpiece ih
  | drop hl _ ih => exact .drop hl ih

/-- Statements have no lines that name devices. -/
theorem Shows.unaliased {P : Word → Prop} (h : code.Shows P) : Unaliased code code := by
  induction code with
  | nil => exact .nil
  | cons piece code ih =>
    obtain ⟨hpiece, hcode⟩ := shows_cons.1 h
    refine .keep ?_ (ih hcode)
    rintro l rfl
    cases hpiece with
    | line hopcode _ => exact hopcode

end Code

namespace Draft

variable {file : String} {comments : Bool} {d d' : Draft} {code code' : Code}

/-- The draft without the aliases among its lines so far. -/
def withoutAliases (d : Draft) : Draft := { d with content := d.content.withoutAliases }

theorem add_withoutAliases {piece : Piece} (hd : d.content.Bounded)
    (hpiece : ∀ l, piece = .line l → l.opcode ≠ .nameDevice)
    (h : d.add file comments piece = .ok d') :
    d.withoutAliases.add file comments piece = .ok d'.withoutAliases ∧ d'.content.Bounded := by
  cases piece with
  | line l =>
    obtain ⟨hl, rfl⟩ := add_line_eq_ok.1 h
    refine ⟨add_line_eq_ok.2 ⟨hl, ?_⟩, hd.emit _⟩
    have hnot : (d.instruction file comments l).isAlias = false := decide_eq_false (hpiece l rfl)
    exact congrArg (Draft.mk · []) (Section.withoutAliases_emit hd hnot)
  | label l =>
    obtain ⟨hl, rfl⟩ := add_label_eq_ok.1 h
    refine ⟨add_label_eq_ok.2 ⟨?_, ?_⟩, ?_⟩
    · simpa [withoutAliases, Section.withoutAliases, renumberedLabels] using hl
    · simp [withoutAliases, Section.withoutAliases, renumberedLabels, Section.size,
        Instruction.renumbered_length]
    · exact List.forall_mem_append.2 ⟨hd, List.forall_mem_singleton.2 le_rfl⟩
  | note text =>
    cases h
    exact ⟨rfl, hd⟩
  | finish =>
    cases h
    exact ⟨rfl, hd⟩

theorem addAll_withoutAliases (hd : d.content.Bounded) (hcode : Code.Unaliased code code')
    (h : d.addAll file comments code = .ok d') :
    d.withoutAliases.addAll file comments code' = .ok d'.withoutAliases := by
  induction hcode generalizing d with
  | nil =>
    cases h
    rfl
  | keep hpiece _ ih =>
    obtain ⟨d₁, hd₁, h⟩ := addAll_cons_eq_ok h
    obtain ⟨hadd, hbounded⟩ := add_withoutAliases hd hpiece hd₁
    rw [addAll, hadd]
    exact ih hbounded h
  | @drop l code code' hl _ ih =>
    obtain ⟨d₁, hd₁, h⟩ := addAll_cons_eq_ok h
    obtain ⟨-, rfl⟩ := add_line_eq_ok.1 hd₁
    have halias : (d.instruction file comments l).isAlias = true := decide_eq_true hl
    have hrest := @ih ⟨d.content.emit (d.instruction file comments l), []⟩ (hd.emit _) h
    rw [withoutAliases, Section.withoutAliases_emit_alias hd halias] at hrest
    exact hrest

end Draft

theorem Code.toSection_withoutAliases {file name : String} {comments : Bool} {code code' : Code}
    {sect : Section} (hcode : Unaliased code code')
    (h : Code.toSection file comments name code = .ok sect) :
    Code.toSection file comments name code' = .ok sect.withoutAliases := by
  obtain ⟨d, hd, heq⟩ := bind_eq_ok.1 h
  obtain rfl := pure_eq_ok.1 heq
  have hd' : Draft.addAll file comments { content := { name } } code' = .ok d.withoutAliases :=
    Draft.addAll_withoutAliases (d := { content := { name } }) (List.forall_mem_nil _) hcode hd
  rw [toSection, hd']
  rfl

/-- A section that names no device stays as it is. -/
theorem Code.withoutAliases_of_toSection {file name : String} {comments : Bool} {code : Code}
    {P : Word → Prop} {sect : Section} (hcode : code.Shows P)
    (h : Code.toSection file comments name code = .ok sect) : sect.withoutAliases = sect :=
  Except.ok.inj ((toSection_withoutAliases hcode.unaliased h).symm.trans h)

/-! ## Programs -/

namespace Context

variable {ctx : Context} {p : Resolved.Program}

/-- The same without aliases. -/
def nameless (ctx : Context) : Context :=
  { ctx with options := { ctx.options with emitAliases := false } }

theorem stmt_nameless (st : Resolved.Stmt) : ctx.nameless.stmt st = ctx.stmt st :=
  stmt_withOptions ctx { ctx.options with emitAliases := false } rfl rfl st

theorem item_nameless {i : Resolved.Item} {s s' : State} {code : Code}
    (h : ctx.item i s = .ok code s') :
    ∃ code', ctx.nameless.item i s = .ok code' s' ∧ Code.Unaliased code code' := by
  cases i with
  | nameSlot pos slotPos d =>
    have hfinish : Code.Unaliased [.finish] [.finish] := .keep nofun .nil
    simp only [item, Lower.bind_eq_ok, Lower.get_eq_ok, Lower.ofExcept_eq_ok,
      Lower.modify_eq_ok] at h
    obtain ⟨_, _, ⟨rfl, rfl⟩, devices, _, ⟨hdevices, rfl⟩, _, _, rfl, h⟩ := h
    have hoff : ctx.nameless.item (.nameSlot pos slotPos d) s =
        .ok [.finish] { s with devices } := by
      simp only [item, Lower.bind_eq_ok, Lower.get_eq_ok, Lower.ofExcept_eq_ok,
        Lower.modify_eq_ok]
      exact ⟨s, s, ⟨rfl, rfl⟩, devices, s, ⟨hdevices, rfl⟩, (), _, rfl, rfl⟩
    split at h
    · obtain ⟨rfl, rfl⟩ := Lower.pure_eq_ok.1 h
      exact ⟨[.finish], hoff, .drop rfl .nil⟩
    · obtain ⟨rfl, rfl⟩ := Lower.pure_eq_ok.1 h
      exact ⟨[.finish], hoff, hfinish⟩
  | const c =>
    obtain ⟨rfl, rfl⟩ := Lower.pure_eq_ok.1 h
    exact ⟨[.finish], rfl, .keep nofun .nil⟩
  | func f =>
    obtain ⟨rfl, rfl⟩ := Lower.pure_eq_ok.1 h
    exact ⟨[.finish], rfl, .keep nofun .nil⟩
  | stmt st =>
    refine ⟨code, ?_, (shows_stmt st (fun _ _ => trivial) s code s' h).unaliased⟩
    rw [item, stmt_nameless]
    exact h

theorem items_nameless {is : List Resolved.Item} {s s' : State} {code : Code}
    (h : ctx.items is s = .ok code s') :
    ∃ code', ctx.nameless.items is s = .ok code' s' ∧ Code.Unaliased code code' := by
  induction is generalizing s code with
  | nil =>
    obtain ⟨rfl, rfl⟩ := items_nil_eq_ok h
    exact ⟨[], rfl, .nil⟩
  | cons i is ih =>
    obtain ⟨code₁, s₁, code₂, h₁, h₂, rfl⟩ := items_cons_eq_ok h
    obtain ⟨code₁', h₁', hcode₁⟩ := item_nameless h₁
    obtain ⟨code₂', h₂', hcode₂⟩ := ih h₂
    refine ⟨code₁' ++ code₂', ?_, hcode₁.append hcode₂⟩
    rw [items]
    exact Lower.bind_eq_ok.2 ⟨code₁', s₁, h₁', Lower.bind_eq_ok.2 ⟨code₂', s', h₂', rfl⟩⟩

theorem function_nameless (globals : List Register) (makesCalls : Bool) (f : Resolved.Function) :
    ctx.nameless.function globals makesCalls f = ctx.function globals makesCalls f := by
  have hparameters : ctx.nameless.parameters = ctx.parameters :=
    parameters_withOptions ctx { ctx.options with emitAliases := false } rfl rfl
  have hstmts : ctx.nameless.stmts f.body = ctx.stmts f.body :=
    stmts_withOptions ctx { ctx.options with emitAliases := false } rfl rfl f.body
  simp only [function, hstmts, hparameters]
  rfl

theorem functions_nameless (graph : Resolved.CallGraph) (globals : List Register)
    (names : List String) :
    ctx.nameless.functions p graph globals names = ctx.functions p graph globals names := by
  induction names with
  | nil => rfl
  | cons name names ih =>
    simp only [functions, function_nameless, ih]

theorem sections_nameless {s s' : State} {ss : List Section}
    (h : ctx.sections p s = .ok ss s') :
    ctx.nameless.sections p s = .ok (ss.map Section.withoutAliases) s' := by
  unfold sections at h ⊢
  obtain ⟨code, s₁, hitems, h⟩ := Lower.bind_eq_ok.1 h
  obtain ⟨code', hitems', hcode⟩ := items_nameless hitems
  refine Lower.bind_eq_ok.2 ⟨code', s₁, hitems', ?_⟩
  simp only [Lower.bind_eq_ok, Lower.modify_eq_ok] at h ⊢
  obtain ⟨_, _, rfl, h⟩ := h
  refine ⟨(), _, rfl, ?_⟩
  by_cases hfunctions : p.functions.isEmpty
  · rw [if_pos hfunctions] at h ⊢
    simp only [Lower.bind_eq_ok, Lower.ofExcept_eq_ok, Lower.pure_eq_ok] at h ⊢
    obtain ⟨main, _, ⟨hmain, rfl⟩, rfl, rfl⟩ := h
    exact ⟨_, _, ⟨Code.toSection_withoutAliases hcode hmain, rfl⟩, rfl, rfl⟩
  · rw [if_neg hfunctions] at h ⊢
    simp only [Lower.bind_eq_ok, Lower.ofExcept_eq_ok, Lower.get_eq_ok, Lower.pure_eq_ok] at h ⊢
    obtain ⟨main, _, ⟨hmain, rfl⟩, _, _, ⟨rfl, rfl⟩, fs, s₂, hfs, sorted, s₃, hsorted, finish, _,
      ⟨hfinish, rfl⟩, rfl, rfl⟩ := h
    have hexit : Code.Shows (fun _ => True)
        [Origin.line ⟨"program end", .first⟩ .jump [.label .programEnd]] := by simp
    have hend : Code.Shows (fun _ => True) [.label .programEnd] := by simp
    have hunnamed : ∀ sect ∈ fs, sect.withoutAliases = sect :=
      gives_functions (P := fun _ => True) (fun _ _ => trivial)
        (fun _ _ _ hcode hsect => Code.withoutAliases_of_toSection hcode hsect) _ _ fs s₂ hfs
    have hsame := gives_inSourceOrder hunnamed _ _ sorted s₃ hsorted
    refine ⟨main.withoutAliases, _, ⟨?_, rfl⟩, _, _, ⟨rfl, rfl⟩, fs, s₂, ?_, sorted, s₃, hsorted,
      finish, s₃, ⟨hfinish, rfl⟩, ?_, rfl⟩
    · exact Code.toSection_withoutAliases (hcode.append hexit.unaliased) hmain
    · rw [functions_nameless]
      exact hfs
    · simp only [List.map_cons, List.map_append, List.map_nil,
        Code.withoutAliases_of_toSection hend hfinish]
      rw [List.map_congr_left hsame, List.map_id']

end Context

end Lowering

namespace Assembly

/-- Aliases are left out of every section. -/
def withoutAliases (a : Assembly) : Assembly :=
  { a with sections := a.sections.map Section.withoutAliases }

theorem instructions_withoutAliases (a : Assembly) :
    a.withoutAliases.instructions = unaliased a.instructions := by
  simp only [withoutAliases, instructions, Section.withoutAliases, List.flatMap_map, unaliased,
    List.filter_flatMap]

theorem size_withoutAliases_le (a : Assembly) : a.withoutAliases.size ≤ a.size := by
  rw [size, instructions_withoutAliases]
  exact List.length_filter_le ..

end Assembly

/-- Aliases are left out. -/
def Lowering.Generated.withoutAliases (g : Lowering.Generated) : Lowering.Generated :=
  { g with assembly := g.assembly.withoutAliases }

/-- The warnings among what was logged. -/
def LogRecord.warnings (log : List LogRecord) : List LogRecord := log.filter (·.level = .warning)

namespace Lowering

/-- A program without aliases uses the same registers, and the same is logged but for the number
of lines. -/
theorem Context.program_nameless {ctx : Context} {p : Resolved.Program} {s s' : State}
    {g : Generated} (h : ctx.program p s = .ok g s') :
    ∃ t, ctx.nameless.program p s = .ok g.withoutAliases t ∧
      LogRecord.warnings t.log = LogRecord.warnings s'.log := by
  simp only [program, Lower.bind_eq_ok, Lower.get_eq_ok, Lower.ofExcept_eq_ok, Lower.log_eq_ok,
    Lower.pure_eq_ok] at h ⊢
  obtain ⟨ss, s₁, hss, _, _, ⟨rfl, rfl⟩, _, _, ⟨hlength, rfl⟩, _, _, rfl, rfl, rfl⟩ := h
  have hsize := size_le_of_checkLength hlength
  have hlength' : checkLength ctx.nameless.options.maxLines
      ⟨ss.map Section.withoutAliases, s₁.parameters⟩ = .ok () := by
    have hle := Assembly.size_withoutAliases_le ⟨ss, s₁.parameters⟩
    exact if_pos (le_trans (Int.ofNat_le.2 hle) hsize)
  refine ⟨_, ⟨_, s₁, sections_nameless hss, s₁, s₁, ⟨rfl, rfl⟩, (), s₁, ⟨hlength', rfl⟩, (), _, rfl,
    rfl, rfl⟩, ?_⟩
  simp [LogRecord.warnings]

end Lowering

open Lowering

/-- What is lowered without aliases. -/
theorem Resolved.Program.generate_nameless {file : String} {options : Options}
    {p : Resolved.Program} {g : Generated} (h : (p.generate file options).2 = .ok g) :
    (p.generate file { options with emitAliases := false }).2 = .ok g.withoutAliases ∧
      LogRecord.warnings (p.generate file { options with emitAliases := false }).1 =
        LogRecord.warnings (p.generate file options).1 := by
  cases hpool : RegisterPool.ofCount options.registerCount [] with
  | error e => simp [generate, hpool] at h
  | ok pool =>
    let ctx : Lowering.Context := ⟨file, options, p⟩
    have hon : p.generate file options = Lower.outcome (ctx.program p { pool }) :=
      generate_eq_outcome hpool
    have hoff : p.generate file { options with emitAliases := false } =
        Lower.outcome (ctx.nameless.program p { pool }) :=
      generate_eq_outcome hpool
    rw [hon] at h ⊢
    rw [hoff]
    cases hprogram : ctx.program p { pool } with
    | error e s => simp [hprogram, Lower.outcome] at h
    | ok g' s =>
      obtain rfl : g' = g := by simpa [hprogram, Lower.outcome] using h
      obtain ⟨t, ht, hwarnings⟩ := Context.program_nameless hprogram
      rw [ht]
      exact ⟨rfl, hwarnings⟩

/-! ## Linking -/

/-- An operand of a kind when aliases are left out, with the number of aliases before each line: the
number of a line becomes its new one. -/
def Operand.renumbered (aliases : Nat → Nat) : OperandKind → Operand → Operand
  | .line, .number (.int t) => .number (.int (t - aliases t.toNat))
  | _, x => x

namespace Instruction

/-- The operands in their places, each renumbered. -/
def renumberedOperands (aliases : Nat → Nat) : List OperandKind → List Operand → List Operand
  | kind :: kinds, x :: xs => x.renumbered aliases kind :: renumberedOperands aliases kinds xs
  | _, xs => xs

/-- An instruction with the numbers of lines that they have when aliases are left out. -/
def retargeted (aliases : Nat → Nat) (i : Instruction) : Instruction :=
  { i with operands := renumberedOperands aliases i.opcode.operands i.operands }

end Instruction

/-- The program without aliases, with jumps to the same lines under their new numbers. -/
def Linked.withoutAliases (p : Linked) : Linked :=
  ⟨(unaliased p.instructions).map (Instruction.retargeted (aliasesBefore p.instructions))⟩

namespace Assembly

variable {y : Symbols}

variable {is : List Instruction} {addresses : List (Label × Nat)}
  {parameters : List ((String × Int) × Register)}

/-- The labels of a section that starts at the given line. -/
theorem addLabels_withoutAliases {before rest : List Instruction} {s : Section}
    {labels known known' : List (Label × Nat)} (his : is = before ++ (s.instructions ++ rest))
    (hlabels : ∀ e ∈ labels, e.2 ≤ s.size)
    (h : addLabels before.length known labels = .ok known') :
    addLabels (renumbered is before.length) (renumberedLabels is known)
      (renumberedLabels s.instructions labels) = .ok (renumberedLabels is known') := by
  induction labels generalizing known with
  | nil =>
    cases h
    rfl
  | cons e es ih =>
    obtain ⟨he, hes⟩ := List.forall_mem_cons.1 hlabels
    obtain ⟨l, n⟩ := e
    rw [addLabels] at h
    split at h
    · cases h
    · rename_i hnew
      have hnone : ¬ ((renumberedLabels is known).lookup l).isSome := by
        rw [Instruction.lookup_renumberedLabels]
        simpa using hnew
      have hrest := ih hes h
      change addLabels _ _
        ((l, renumbered s.instructions n) :: renumberedLabels s.instructions es) = _
      rw [addLabels, if_neg hnone, ← Instruction.renumbered_within his he]
      simpa [renumberedLabels] using hrest

/-- The lines of all labels, where the first section starts at the given line. -/
theorem addressesFrom_withoutAliases {before : List Instruction} {ss : List Section}
    {known : List (Label × Nat)} (his : is = before ++ ss.flatMap (·.instructions))
    (hss : ∀ s ∈ ss, s.Bounded)
    (h : addressesFrom before.length known ss = .ok addresses) :
    addressesFrom (renumbered is before.length) (renumberedLabels is known)
      (ss.map Section.withoutAliases) = .ok (renumberedLabels is addresses) := by
  induction ss generalizing before known with
  | nil =>
    cases h
    rfl
  | cons s ss ih =>
    obtain ⟨hs, hss⟩ := List.forall_mem_cons.1 hss
    rw [List.flatMap_cons] at his
    rw [addressesFrom] at h
    split at h
    · cases h
    · rename_i known' hknown'
      have hlength : renumbered is before.length + s.withoutAliases.size =
          renumbered is (before ++ s.instructions).length := by
        rw [List.length_append, Instruction.renumbered_within his le_rfl,
          Instruction.renumbered_length]
        rfl
      rw [List.map_cons, addressesFrom]
      have hadd : addLabels (renumbered is before.length) (renumberedLabels is known)
          s.withoutAliases.labels = _ := addLabels_withoutAliases his hs hknown'
      rw [hadd]
      dsimp only
      rw [hlength]
      refine ih (by simpa using his) hss ?_
      simpa [Section.size] using h

theorem resolve_withoutAliases {kind : OperandKind} {x z : Operand} (hx : x.Suits y kind)
    (h : resolve addresses parameters x = .ok z) :
    resolve (renumberedLabels is addresses) parameters x =
      .ok (z.renumbered (aliasesBefore is) kind) := by
  cases hx with
  | @label l _ =>
    simp only [resolve] at h
    split at h
    · rename_i line hline
      cases h
      simp only [resolve, Instruction.lookup_renumberedLabels, hline, Option.map_some,
        Operand.renumbered, renumbered, Int.toNat_natCast,
        Int.ofNat_sub (Instruction.aliasesBefore_le is line)]
    · cases h
  | @parameter f index _ =>
    simp only [resolve] at h ⊢
    split at h
    · rename_i r hr
      cases h
      rfl
    · cases h
  | _ =>
    cases h
    rfl

theorem resolveAll_withoutAliases {kinds : List OperandKind} {xs zs : List Operand}
    (hxs : List.Forall₂ (fun kind x => x.Suits y kind) kinds xs)
    (h : resolveAll addresses parameters xs = .ok zs) :
    resolveAll (renumberedLabels is addresses) parameters xs =
      .ok (Instruction.renumberedOperands (aliasesBefore is) kinds zs) := by
  induction hxs generalizing zs with
  | nil =>
    cases h
    rfl
  | cons hx _ ih =>
    simp only [resolveAll, bind_eq_ok, pure_eq_ok] at h ⊢
    obtain ⟨z, hz, zs, hzs, rfl⟩ := h
    exact ⟨_, resolve_withoutAliases hx hz, _, ih hzs, rfl⟩

theorem linkAll_withoutAliases {js ks : List Instruction} (hjs : ∀ j ∈ js, j.Legal y)
    (h : linkAll addresses parameters js = .ok ks) :
    linkAll (renumberedLabels is addresses) parameters (unaliased js) =
      .ok ((unaliased ks).map (Instruction.retargeted (aliasesBefore is))) := by
  induction js generalizing ks with
  | nil =>
    cases h
    rfl
  | cons j js ih =>
    obtain ⟨hj, hjs⟩ := List.forall_mem_cons.1 hjs
    simp only [linkAll, bind_eq_ok, pure_eq_ok] at h
    obtain ⟨operands, hoperands, ks, hks, rfl⟩ := h
    have hsame : ({ j with operands } : Instruction).isAlias = j.isAlias := rfl
    cases halias : j.isAlias with
    | true => simpa [unaliased, halias, hsame] using ih hjs hks
    | false =>
      have hrest := ih hjs hks
      simp only [unaliased, List.filter_cons, hsame, halias, Bool.not_false, if_true] at hrest ⊢
      simp only [linkAll, bind_eq_ok, pure_eq_ok]
      exact ⟨_, resolveAll_withoutAliases hj hoperands, _, hrest, rfl⟩

/-- Linking keeps the opcodes, and so it keeps aliases apart from other lines. -/
theorem aliasesBefore_of_linkAll {js ks : List Instruction}
    (h : linkAll addresses parameters js = .ok ks) : aliasesBefore ks = aliasesBefore js := by
  have hopcodes : ks.map (·.opcode) = js.map (·.opcode) := by
    induction js generalizing ks with
    | nil =>
      cases h
      rfl
    | cons j js ih =>
      simp only [linkAll, bind_eq_ok, pure_eq_ok] at h
      obtain ⟨operands, -, ks, hks, rfl⟩ := h
      simp [ih hks]
  have hcount (is : List Instruction) (n : Nat) : aliasesBefore is n =
      ((is.map (·.opcode)).take n).countP (decide <| · = Opcode.nameDevice) := by
    rw [← List.map_take, List.countP_map]
    rfl
  funext n
  rw [hcount, hopcodes, ← hcount]

/-- What is linked without aliases. -/
theorem link_withoutAliases {a : Assembly} {linked : Linked}
    (hbounded : ∀ s ∈ a.sections, s.Bounded) (hlegal : ∀ i ∈ a.instructions, i.Legal y)
    (h : a.link = .ok linked) : a.withoutAliases.link = .ok linked.withoutAliases := by
  obtain ⟨addresses, haddresses, hlink⟩ := addresses_of_link h
  have haddresses' : a.withoutAliases.addresses =
      .ok (renumberedLabels a.instructions addresses) :=
    @addressesFrom_withoutAliases a.instructions addresses [] a.sections [] rfl hbounded haddresses
  have hlink' : linkAll (renumberedLabels a.instructions addresses) a.parameters
      (unaliased a.instructions) = _ := linkAll_withoutAliases hlegal hlink
  simp only [link, bind_eq_ok, pure_eq_ok, instructions_withoutAliases]
  refine ⟨_, haddresses', _, hlink', ?_⟩
  rw [Linked.withoutAliases, aliasesBefore_of_linkAll hlink]

end Assembly

end Chipwright
