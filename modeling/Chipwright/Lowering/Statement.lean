import Chipwright.Lowering.Expression
import Chipwright.Options
import Chipwright.Resolved.Yield

/-!
# Lowering of statements

A variable keeps one register from its definition to the end of its block. Conditionals and
loops become jumps:

* `if (c) { T } else { E }` is `beqz c else`, `T`, `j end`, `else:`, `E`, `end:`;
* `loop { B }` is `loop:`, `B`, `j loop`;
* a call moves its arguments to the parameters of the function, then `jal` goes there.
-/
namespace Chipwright

/-- The name of each slot that has one. A slot has at most one name. -/
structure DeviceTable where
  entries : List (Slot × String) := []

namespace DeviceTable

def name? (slot : Slot) (t : DeviceTable) : Option String := t.entries.lookup slot

def size (t : DeviceTable) : Nat := t.entries.length

/-- Names a slot that has no name yet. -/
def bind (name : String) (slot : Slot) (location : Option Location) (t : DeviceTable) :
    Except Failure DeviceTable :=
  match t.name? slot with
  | some existing =>
    .error (.diagnostic { cause := .slotConflict slot.name name existing, location })
  | none => .ok ⟨t.entries ++ [(slot, name)]⟩

end DeviceTable

namespace Lowering

/-- What stays the same while a program is lowered. -/
structure Context where
  file : String
  options : Options
  /-- The program that is lowered. -/
  resolved : Resolved.Program

structure State where
  pool : RegisterPool
  homes : Homes := []
  /-- The registers of parameters, by function and index. -/
  parameters : List ((String × Int) × Register) := []
  /-- For each call lowered so far, the function and the registers that it must keep. -/
  liveAtCalls : List (String × List Register) := []
  devices : DeviceTable := {}
  /-- The number of loops so far. -/
  loops : Nat := 0
  /-- The number of conditionals so far. -/
  conditionals : Nat := 0
  /-- What the searches for a `yield` have found so far. -/
  memory : Resolved.Memory := []
  /-- The general registers used in what is finished. -/
  used : List Register := []
  log : List LogRecord := []

/-- A step of lowering. When it fails, the log is that up to the failure. -/
abbrev Lower := EStateM Failure State

namespace Lower

def ofExcept {α : Type} : Except Failure α → Lower α
  | .ok a => pure a
  | .error e => throw e

def log (level : Level) (message : String) : Lower Unit :=
  modify fun s => { s with log := s.log ++ [⟨level, message⟩] }

/-- A step that looks at the state and changes its pool. If it fails, the state stays as it is. -/
def onPool {α : Type} (f : State → Except Failure (α × RegisterPool)) : Lower α := fun s =>
  match f s with
  | .ok (a, pool) => .ok a { s with pool }
  | .error e => .error e s

/-- Runs a step in a register frame of its own. -/
def framed {α : Type} (step : Lower α) : Lower α := do
  onPool fun s => return ((), s.pool.push)
  let a ← step
  onPool fun s => do
    let (_, pool) ← s.pool.pop
    return (a, pool)

/-- The number of the next loop. -/
def nextLoop : Lower Nat :=
  modifyGet fun s => (s.loops, { s with loops := s.loops + 1 })

/-- The number of the next conditional. -/
def nextConditional : Lower Nat :=
  modifyGet fun s => (s.conditionals, { s with conditionals := s.conditionals + 1 })

end Lower

/-- The registers that a function must keep for the calls lowered so far. -/
def State.keptFor (f : String) (s : State) : List Register :=
  (s.liveAtCalls.filter (·.1 = f)).flatMap (·.2)

namespace Context

/-- Takes a register for a construct at a place of the program. -/
def allocate (ctx : Context) (construct : String) (pos : Position) : Lower Register :=
  Lower.onPool fun s => s.pool.allocate construct (some (pos.inFile ctx.file))

/-- Takes a register for a variable. -/
def home (ctx : Context) (v : Variable) : Lower Register := do
  let r ← ctx.allocate s!"variable '{v.name}'" v.pos
  modify fun s => { s with homes := (v, r) :: s.homes }
  return r

/-- The surroundings of an expression that is lowered in a state. -/
def exprContext (ctx : Context) (origin : Origin) (s : State) : ExprContext :=
  ⟨ctx.file, s.homes, origin⟩

def expr (ctx : Context) (origin : Origin) (e : Resolved.Expr) : Lower (Value × Code) :=
  Lower.onPool fun s => do
    let (x, code, pool) ← (ctx.exprContext origin s).lower e none s.pool
    return ((x, code), pool)

def exprs (ctx : Context) (origin : Origin) (es : List Resolved.Expr) :
    Lower (List Value × Code) :=
  Lower.onPool fun s => do
    let (xs, code, pool) ← (ctx.exprContext origin s).lowerAll es s.pool
    return ((xs, code), pool)

def exprInto (ctx : Context) (origin : Origin) (e : Resolved.Expr) (target : Register) :
    Lower Code :=
  Lower.onPool fun s => (ctx.exprContext origin s).lowerInto e target s.pool

def releaseAll (xs : List Value) : Lower Unit :=
  Lower.onPool fun s => do
    let pool ← Value.releaseAll s.pool xs
    return ((), pool)

/-- The register of a variable that is in scope. -/
def homeOf (v : Variable) : Lower Register := do
  Lower.ofExcept ((← get).homes.get v)

/-- What is told of a loop that never yields. -/
def loopWarning (ctx : Context) (pos : Position) : String :=
  s!"{(pos.inFile ctx.file).text}: warning: loop never yields and will use " ++
    "its full line allowance every tick"

/-- Looks for a `yield` that a block can come to. -/
def search (ctx : Context) (body : List Resolved.Stmt) : Lower Bool := do
  let (found, memory) ← Lower.ofExcept
    (ctx.resolved.search ctx.options.limits.search (.block body) (← get).memory)
  modify fun s => { s with memory }
  return found

/-- Refuses, or warns of, a loop that never yields. -/
def checkLoop (ctx : Context) (pos : Position) (body : List Resolved.Stmt) : Lower Unit := do
  unless ← ctx.search body do
    if ctx.options.requireYield then throw (.located ctx.file pos .missingYield)
    Lower.log .warning (ctx.loopWarning pos)

/-- The lines that move arguments to the parameters of a function, from an index on. -/
def argumentMoves (origin : Origin) (f : String) : Int → List Value → Code
  | _, [] => []
  | index, x :: xs =>
    origin.line .move [.parameter f index, x.operand] :: argumentMoves origin f (index + 1) xs

def call (ctx : Context) (pos : Position) (f : String) (args : List Resolved.Expr) :
    Lower Code := do
  let origin : Origin := ⟨s!"call to '{f}'", pos⟩
  let (xs, code) ← ctx.exprs origin args
  modify fun s => { s with liveAtCalls := s.liveAtCalls ++ [(f, s.pool.live)] }
  releaseAll xs
  return .note s!"call {f}" :: code ++ argumentMoves origin f 0 xs ++
    [origin.line .jumpAndLink [.label (.function f)]]

mutual

def stmt (ctx : Context) : Resolved.Stmt → Lower Code
  | .define pos v value => do
    let r ← ctx.home v
    let code ← ctx.exprInto ⟨s!"definition of '{v.name}'", pos⟩ value r
    return .note s!"let {v.name}" :: code ++ [.finish]
  | .assign pos v value => do
    let r ← homeOf v
    let code ← ctx.exprInto ⟨s!"assignment to '{v.name}'", pos⟩ value r
    return .note s!"{v.name} = ..." :: code ++ [.finish]
  | .block body => do
    let code ← Lower.framed (ctx.stmts body)
    return code ++ [.finish]
  | .call pos f args => do
    let code ← ctx.call pos f.name args
    return code ++ [.finish]
  | .loop pos body => do
    ctx.checkLoop pos body
    let start := Label.loop (← Lower.nextLoop)
    let code ← Lower.framed (ctx.stmts body)
    return [.label start, .note "loop"] ++ code ++
      [Origin.line ⟨"loop", pos⟩ .jump [.label start], .finish]
  | .ifThen pos condition thenBody => do
    let n ← Lower.nextConditional
    let origin : Origin := ⟨"if condition", pos⟩
    let (x, code) ← ctx.expr origin condition
    releaseAll [x]
    let thenCode ← Lower.framed (ctx.stmts thenBody)
    return .note "if" :: code ++
      [origin.line .branchZero [x.operand, .label (.ifEnd n)]] ++ thenCode ++
      [.label (.ifEnd n), .finish]
  | .ifElse pos condition thenBody elseBody => do
    let n ← Lower.nextConditional
    let origin : Origin := ⟨"if condition", pos⟩
    let (x, code) ← ctx.expr origin condition
    releaseAll [x]
    let thenCode ← Lower.framed (ctx.stmts thenBody)
    let elseCode ← Lower.framed (ctx.stmts elseBody)
    return .note "if" :: code ++
      [origin.line .branchZero [x.operand, .label (.ifElse n)]] ++ thenCode ++
      [Origin.line ⟨"if", pos⟩ .jump [.label (.ifEnd n)], .label (.ifElse n), .note "else"] ++
      elseCode ++ [.label (.ifEnd n), .finish]
  | .read pos device property _ v => do
    let place := s!"{device.slot.name}.{property}"
    let r ← homeOf v
    return [.note s!"read {place}",
      Origin.line ⟨s!"read of {place}", pos⟩ .load
        [.register r, .device device.slot, .name property],
      .finish]
  | .write pos value device property => do
    let place := s!"{device.slot.name}.{property}"
    let origin : Origin := ⟨s!"write to {place}", pos⟩
    let (x, code) ← ctx.expr origin value
    releaseAll [x]
    return .note s!"write {place}" :: code ++
      [origin.line .store [.device device.slot, .name property, x.operand], .finish]
  | .yield pos => return [Origin.line ⟨"yield", pos⟩ .yield [], .finish]

def stmts (ctx : Context) : List Resolved.Stmt → Lower Code
  | [] => return []
  | s :: ss => do
    let code₁ ← ctx.stmt s
    let code₂ ← ctx.stmts ss
    return code₁ ++ code₂

end

/-- A statement of the top level. Constants and functions give no code there. -/
def item (ctx : Context) : Resolved.Item → Lower Code
  | .nameSlot pos _ d => do
    let devices ← Lower.ofExcept
      ((← get).devices.bind d.name d.slot (some (pos.inFile ctx.file)))
    modify fun s => { s with devices }
    if ctx.options.emitAliases then
      return [Origin.line ⟨s!"alias '{d.name}'", pos⟩ .nameDevice
        [.name d.name, .device d.slot], .finish]
    return [.finish]
  | .const _ => return [.finish]
  | .func _ => return [.finish]
  | .stmt s => ctx.stmt s

def items (ctx : Context) : List Resolved.Item → Lower Code
  | [] => return []
  | i :: is => do
    let code₁ ← ctx.item i
    let code₂ ← ctx.items is
    return code₁ ++ code₂

end Context

end Lowering

end Chipwright
