import Chipwright.Proofs.Lowering.Congruence

/-!
# Comments

Comments are put on the lines of a section from the remarks that its code holds, and nothing else
looks at the option that turns them on. So a program without comments is the program with comments
from which they have been taken away, failures included.
-/
namespace Chipwright

/-- The instruction without its comment. -/
def Instruction.uncommented (i : Instruction) : Instruction := { i with comment := none }

namespace Section

/-- The section without comments. -/
def uncommented (s : Section) : Section :=
  { s with instructions := s.instructions.map Instruction.uncommented }

@[simp] theorem name_uncommented (s : Section) : s.uncommented.name = s.name := rfl

@[simp] theorem labels_uncommented (s : Section) : s.uncommented.labels = s.labels := rfl

@[simp] theorem size_uncommented (s : Section) : s.uncommented.size = s.size :=
  List.length_map _

theorem emit_uncommented (s : Section) (i : Instruction) :
    s.uncommented.emit i.uncommented = (s.emit i).uncommented := by
  simp [uncommented, emit]

theorem place_uncommented (s : Section) (l : Label) :
    s.uncommented.place l = uncommented <$> s.place l := by
  simp only [place, labels_uncommented, size_uncommented, name_uncommented]
  split <;> rfl

end Section

namespace Assembly

/-- The sections without comments. -/
def uncommented (a : Assembly) : Assembly :=
  { a with sections := a.sections.map Section.uncommented }

theorem instructions_uncommented (a : Assembly) :
    a.uncommented.instructions = a.instructions.map Instruction.uncommented := by
  simp only [uncommented, instructions, Section.uncommented, List.flatMap_map, List.map_flatMap]

@[simp] theorem size_uncommented (a : Assembly) : a.uncommented.size = a.size := by
  rw [size, instructions_uncommented, List.length_map, size]

end Assembly

/-- The program without comments. -/
def Linked.uncommented (p : Linked) : Linked := ⟨p.instructions.map Instruction.uncommented⟩

/-! ## Linking -/

namespace Assembly

variable {addresses : List (Label × Nat)} {parameters : List ((String × Int) × Register)}

theorem addressesFrom_uncommented (offset : Nat) (known : List (Label × Nat))
    (ss : List Section) :
    addressesFrom offset known (ss.map Section.uncommented) = addressesFrom offset known ss := by
  induction ss generalizing offset known with
  | nil => rfl
  | cons s ss ih =>
    simp only [List.map_cons, addressesFrom, Section.labels_uncommented, Section.size_uncommented,
      ih]

theorem linkAll_uncommented (is : List Instruction) :
    linkAll addresses parameters (is.map Instruction.uncommented) =
      List.map Instruction.uncommented <$> linkAll addresses parameters is := by
  induction is with
  | nil => rfl
  | cons i is ih =>
    rw [List.map_cons, linkAll, ih, linkAll]
    simp only [Instruction.uncommented, map_bind, map_pure, bind_map_left, List.map_cons]

/-- What is linked without comments. -/
theorem link_uncommented (a : Assembly) :
    a.uncommented.link = Linked.uncommented <$> a.link := by
  have haddresses : a.uncommented.addresses = a.addresses := addressesFrom_uncommented 0 [] _
  have hparameters : a.uncommented.parameters = a.parameters := rfl
  simp only [link, haddresses, hparameters, instructions_uncommented, linkAll_uncommented,
    Linked.uncommented, map_bind, map_pure, bind_map_left]

end Assembly

namespace Lowering

/-! ## Sections -/

/-- The program without comments. -/
def Generated.uncommented (g : Generated) : Generated :=
  { g with assembly := g.assembly.uncommented }

namespace Draft

variable (file : String) (comments : Bool)

/-- The draft without the comments of the lines so far. -/
def uncommented (d : Draft) : Draft := { d with content := d.content.uncommented }

theorem add_uncommented (d : Draft) (piece : Piece) :
    d.uncommented.add file false piece = Draft.uncommented <$> d.add file comments piece := by
  cases piece with
  | line l =>
    have hfault : (d.uncommented.instruction file false l).fault? =
        (d.instruction file comments l).fault? := rfl
    simp only [add, Instruction.checked, hfault]
    cases (d.instruction file comments l).fault? with
    | some fault => rfl
    | none =>
      have hemit := Section.emit_uncommented d.content (d.instruction file comments l)
      exact congrArg (fun content => Except.ok (Draft.mk content [])) hemit
  | label l =>
    simp only [add, uncommented, Section.place_uncommented]
    cases d.content.place l <;> rfl
  | note text => rfl
  | finish => rfl

theorem addAll_uncommented (d : Draft) (code : Code) :
    d.uncommented.addAll file false code = Draft.uncommented <$> d.addAll file comments code := by
  induction code generalizing d with
  | nil => rfl
  | cons piece pieces ih =>
    rw [addAll, add_uncommented file comments, addAll]
    cases d.add file comments piece with
    | error e => rfl
    | ok d' => exact ih d'

end Draft

/-- Code makes up the same section with and without comments, apart from these. -/
theorem Code.toSection_uncommented (file : String) (comments : Bool) (name : String)
    (code : Code) :
    Code.toSection file false name code =
      Section.uncommented <$> Code.toSection file comments name code := by
  have hall : Draft.addAll file false { content := { name } } code =
      Draft.uncommented <$> Draft.addAll file comments { content := { name } } code :=
    Draft.addAll_uncommented file comments { content := { name } } code
  simp only [toSection, hall, bind_map_left, map_bind, map_pure]
  rfl

/-! ## Programs -/

namespace Lower

theorem ofExcept_map {α β : Type} (f : α → β) (x : Except Failure α) :
    ofExcept (f <$> x) = f <$> ofExcept x := by
  cases x <;> rfl

end Lower

namespace Context

/-- The same without comments. -/
def silent (ctx : Context) : Context :=
  { ctx with options := { ctx.options with emitComments := false } }

variable (ctx : Context)

theorem stmts_silent (sts : List Resolved.Stmt) : ctx.silent.stmts sts = ctx.stmts sts :=
  stmts_withOptions ctx { ctx.options with emitComments := false } rfl rfl sts

theorem items_silent (is : List Resolved.Item) : ctx.silent.items is = ctx.items is := by
  induction is with
  | nil => rfl
  | cons i is ih =>
    have hitem : ctx.silent.item i = ctx.item i := by
      cases i with
      | stmt st => exact stmt_withOptions ctx { ctx.options with emitComments := false } rfl rfl st
      | nameSlot pos slotPos d | const c | func f => rfl
    simp only [items, hitem, ih]

theorem toSection_silent (name : String) (code : Code) :
    Lower.ofExcept (Code.toSection ctx.silent.file ctx.silent.options.emitComments name code) =
      Section.uncommented <$>
        Lower.ofExcept (Code.toSection ctx.file ctx.options.emitComments name code) := by
  rw [← Lower.ofExcept_map, ← Code.toSection_uncommented]
  rfl

theorem function_silent (globals : List Register) (makesCalls : Bool) (f : Resolved.Function) :
    ctx.silent.function globals makesCalls f =
      Section.uncommented <$> ctx.function globals makesCalls f := by
  have hparameters : ctx.silent.parameters = ctx.parameters :=
    parameters_withOptions ctx { ctx.options with emitComments := false } rfl rfl
  simp only [function, stmts_silent, hparameters, toSection_silent, map_bind, map_pure,
    bind_map_left, Section.size_uncommented]
  rfl

theorem functions_silent (p : Resolved.Program) (graph : Resolved.CallGraph)
    (globals : List Register) (names : List String) :
    ctx.silent.functions p graph globals names =
      List.map Section.uncommented <$> ctx.functions p graph globals names := by
  induction names with
  | nil => rfl
  | cons name names ih =>
    simp only [functions]
    cases p.function? name with
    | none => rfl
    | some f =>
      simp only [function_silent, ih, map_bind, map_pure, bind_map_left, List.map_cons]

theorem inSourceOrder_uncommented (ss : List Section) (fs : List Resolved.Function) :
    inSourceOrder (ss.map Section.uncommented) fs =
      List.map Section.uncommented <$> inSourceOrder ss fs := by
  induction fs with
  | nil => rfl
  | cons f fs ih =>
    have hname : (fun s : Section => decide (s.name = f.name)) ∘ Section.uncommented =
      fun s => decide (s.name = f.name) := rfl
    simp only [inSourceOrder, List.find?_map, hname]
    cases ss.find? (fun s => decide (s.name = f.name)) with
    | none => rfl
    | some s => simp only [Option.map_some, ih, map_bind, map_pure, bind_map_left, List.map_cons]

theorem sections_silent (p : Resolved.Program) :
    ctx.silent.sections p = List.map Section.uncommented <$> ctx.sections p := by
  simp only [sections, items_silent, toSection_silent, functions_silent, map_bind,
    bind_map_left, inSourceOrder_uncommented]
  split
  · simp only [map_bind, map_pure, List.map_cons, List.map_nil]
  · simp only [map_bind, map_pure, List.map_cons, List.map_append, List.map_nil, List.cons_append]

end Context

/-- A program is as long without comments as with them. -/
theorem checkLength_uncommented (maxLines : Int) (a : Assembly) :
    checkLength maxLines a.uncommented = checkLength maxLines a := by
  have helement : elementAt? a.uncommented.instructions maxLines =
      (elementAt? a.instructions maxLines).map Instruction.uncommented := by
    simp only [elementAt?, Assembly.instructions_uncommented, List.length_map, List.getElem?_map,
      Option.map_bind]
    rfl
  simp only [checkLength, Assembly.size_uncommented, helement]
  cases elementAt? a.instructions maxLines <;> rfl

theorem Context.program_silent (ctx : Context) (p : Resolved.Program) :
    ctx.silent.program p = Generated.uncommented <$> ctx.program p := by
  have hassembly (ss : List Section) (parameters : List ((String × Int) × Register)) :
      (⟨ss.map Section.uncommented, parameters⟩ : Assembly) =
        (⟨ss, parameters⟩ : Assembly).uncommented := rfl
  simp only [program, sections_silent, bind_map_left, map_bind, map_pure, hassembly,
    checkLength_uncommented, Assembly.size_uncommented]
  rfl

end Lowering

open Lowering

/-- What is lowered without comments. -/
theorem Resolved.Program.generate_uncommented (file : String) (options : Options)
    (p : Resolved.Program) :
    p.generate file { options with emitComments := false } =
      ((p.generate file options).1, Generated.uncommented <$> (p.generate file options).2) := by
  cases hpool : RegisterPool.ofCount options.registerCount [] with
  | error e =>
    simp only [generate, hpool]
    rfl
  | ok pool =>
    let ctx : Lowering.Context := ⟨file, options, p⟩
    have hon : p.generate file options = Lower.outcome (ctx.program p { pool }) :=
      generate_eq_outcome hpool
    have hoff : p.generate file { options with emitComments := false } =
        Lower.outcome (ctx.silent.program p { pool }) :=
      generate_eq_outcome hpool
    rw [hon, hoff, ctx.program_silent, map_eq_pure_bind, Lower.bind_apply]
    cases ctx.program p { pool } <;> rfl

end Chipwright
