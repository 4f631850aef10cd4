import Chipwright.Lowering.Statement

/-!
# Lowering of programs

The top-level code comes first; if there are functions, it ends with a jump past them. A
function returns through `ra`, or, if it makes calls, through a register in which it has
saved `ra`. Functions are lowered callers first, so that a function knows the registers that
it has to keep for its callers.
-/
namespace Chipwright

/-- The place of an index in a list of the given size. A negative index counts from the
end. -/
def index? (size : Nat) (i : Int) : Option Nat :=
  let n := if 0 ≤ i then i else size + i
  if 0 ≤ n ∧ n < size then some n.toNat else none

/-- The element at an index from either end. -/
def elementAt? {α : Type} (xs : List α) (i : Int) : Option α :=
  (index? xs.length i).bind (xs[·]?)

namespace Lowering

/-- A program that is lowered but not linked. -/
structure Generated where
  assembly : Assembly
  /-- The general registers that the program uses, by number. -/
  registers : List Register

/-- The name of the section of the top-level code. -/
def mainSection : String := "<main>"

/-- The name of the section after all functions. It has no lines. -/
def endSection : String := "end"

/-- The registers of the variables that functions can see. -/
def State.globalRegisters (s : State) : List Register :=
  (s.homes.filter fun (v, _) => v.function.isNone && v.depth = 0).map (·.2)

namespace Context

/-- Gives registers to the parameters of a function, from an index on. -/
def parameters (ctx : Context) (f : String) : Int → List Variable → Lower Unit
  | _, [] => return
  | index, v :: vs => do
    let r ← ctx.home v
    modify fun s => { s with parameters := s.parameters ++ [((f, index), r)] }
    ctx.parameters f (index + 1) vs

/-- The register that a function returns through, and the code that saves `ra` there. -/
def returnAddress (ctx : Context) (origin : Origin) (f : String) (makesCalls : Bool) :
    Lower (Register × Code) := do
  if makesCalls then
    let r ← ctx.allocate s!"return address of '{f}'" origin.pos
    return (r, [origin.line .move [.register r, .register .ra]])
  return (.ra, [])

/-- The section of a function. Of its pool, the registers `globals` and those that its callers
need are left out. -/
def function (ctx : Context) (globals : List Register) (makesCalls : Bool)
    (f : Resolved.Function) : Lower Section := do
  let kept := globals ++ (← get).keptFor f.name
  Lower.onPool fun _ => do
    let pool ← RegisterPool.ofCount ctx.options.registerCount kept
    return ((), pool)
  let origin : Origin := ⟨s!"function '{f.name}'", f.pos⟩
  ctx.parameters f.name 0 f.params
  let (r, entry) ← ctx.returnAddress origin f.name makesCalls
  let body ← ctx.stmts f.body
  let code := [.label (.function f.name), .note s!"fn {f.name}"] ++ entry ++ body ++
    [origin.line .jump [.register r]]
  let sect ← Lower.ofExcept (Code.toSection ctx.file ctx.options.emitComments f.name code)
  modify fun s => { s with used := s.pool.used ++ s.used }
  Lower.log .debug <| s!"Function {f.name}: {sect.size} lines, " ++
    s!"{(Register.sorted kept).length} registers kept for callers"
  return sect

/-- The sections of functions, in the given order. -/
def functions (ctx : Context) (p : Resolved.Program) (graph : Resolved.CallGraph)
    (globals : List Register) : List String → Lower (List Section)
  | [] => return []
  | name :: names =>
    match p.function? name with
    | none => throw (.unknownFunction name)
    | some f => do
      let makesCalls := !(graph.callees (some name)).isEmpty
      let s ← ctx.function globals makesCalls f
      let ss ← ctx.functions p graph globals names
      return s :: ss

/-- Puts the sections of functions into the order of the source. -/
def inSourceOrder (sections : List Section) : List Resolved.Function → Lower (List Section)
  | [] => return []
  | f :: fs =>
    match sections.find? (·.name = f.name) with
    | none => throw (.unknownFunction f.name)
    | some s => do
      let ss ← inSourceOrder sections fs
      return s :: ss

/-- All sections of a program. -/
def sections (ctx : Context) (p : Resolved.Program) : Lower (List Section) := do
  let code ← ctx.items p.items
  modify fun s => { s with used := s.pool.used ++ s.used }
  let toSection := Code.toSection ctx.file ctx.options.emitComments
  if p.functions.isEmpty then
    let main ← Lower.ofExcept (toSection mainSection code)
    return [main]
  let exit := Origin.line ⟨"program end", .first⟩ .jump [.label .programEnd]
  let main ← Lower.ofExcept (toSection mainSection (code ++ [exit]))
  let globals := (← get).globalRegisters
  let functions ← ctx.functions p p.callGraph globals p.functionOrder
  let functions ← inSourceOrder functions p.functions
  let finish ← Lower.ofExcept (toSection endSection [.label .programEnd])
  return main :: functions ++ [finish]

end Context

/-- Refuses a program that is too long for the chip, and names the construct that goes over
the limit. -/
def checkLength (maxLines : Int) (a : Assembly) : Except Failure Unit :=
  if a.size ≤ maxLines then .ok ()
  else
    match elementAt? a.instructions maxLines with
    | none => .error .indexOutOfRange
    | some i =>
      let cause := Cause.tooManyLines (i.origin.getD "program") a.size maxLines
      .error (.diagnostic { cause, location := i.location })

def Context.program (ctx : Context) (p : Resolved.Program) : Lower Generated := do
  let sections ← ctx.sections p
  let s ← get
  let assembly : Assembly := ⟨sections, s.parameters⟩
  Lower.ofExcept (checkLength ctx.options.maxLines assembly)
  let registers := Register.sorted s.used
  Lower.log .debug s!"Generated {assembly.size} lines using {registers.length} registers"
  return ⟨assembly, registers⟩

end Lowering

/-- Lowers a program. What is logged on the way is there also if it fails. -/
def Resolved.Program.generate (file : String) (options : Options) (p : Resolved.Program) :
    List LogRecord × Except Failure Lowering.Generated :=
  match RegisterPool.ofCount options.registerCount [] with
  | .error e => ([], .error e)
  | .ok pool =>
    let ctx : Lowering.Context := ⟨file, options, p⟩
    match (ctx.program p).run { pool } with
    | .ok g s => (s.log, .ok g)
    | .error e s => (s.log, .error e)

end Chipwright
