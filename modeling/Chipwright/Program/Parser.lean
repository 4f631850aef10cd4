import Chipwright.Options
import Chipwright.Program.Reader

/-!
# From tokens to programs

Every statement is told by its first token. Blocks nest up to a limit.
-/
namespace Chipwright

namespace Reader

/-- `true`, `false`, or a number with or without a minus. -/
def literal : Reader (Position × Literal)
  | [] => .error (.unexpected "literal value" [])
  | t :: ts =>
    match t.kind, ts with
    | .keyword .true_, ts => .ok ⟨((t.pos, .bool true), ts), Nat.le_succ _⟩
    | .keyword .false_, ts => .ok ⟨((t.pos, .bool false), ts), Nat.le_succ _⟩
    | .symbol .minus, [] => .error ⟨.danglingMinus, t.pos⟩
    | .symbol .minus, u :: ts =>
      match Literal.ofNumber? true u.kind with
      | some (.ok value) =>
        .ok ⟨((t.pos, value), ts), by simp only [List.length_cons]; omega⟩
      | some (.error cause) => .error ⟨cause, u.pos⟩
      | none => .error ⟨.danglingMinus, t.pos⟩
    | kind, ts =>
      match Literal.ofNumber? false kind with
      | some (.ok value) => .ok ⟨((t.pos, value), ts), Nat.le_succ _⟩
      | some (.error cause) => .error ⟨cause, t.pos⟩
      | none => .error (.unexpected "literal value" (t :: ts))

/-- `device.property` -/
def deviceProperty : Reader (Device × String) := do
  let device ← take "device or alias name" fun t =>
    match t.kind with
    | .device slot => some (.direct t.pos slot)
    | .name text => some (.named ⟨text, t.pos⟩)
    | _ => none
  symbol .dot
  let property ← name "device property name"
  return (device, property.text)

/-- The statements of a block and its closing brace. -/
def blockRest (statement : Token → Reader Stmt) : Reader (List Stmt) := do
  let body ← many (· = .symbol .rbrace) statement
  symbol .rbrace
  return body

/-- A block, with the position of its opening brace. -/
def block (statement : Token → Reader Stmt) : Reader (Position × List Stmt) := do
  let pos ← expect (.symbol .lbrace)
  let body ← blockRest statement
  return (pos, body)

/-- `slot as name;` -/
def nameSlotRest (pos : Position) : Reader Stmt := do
  let (slotPos, slot) ← take "device (d0-d5 or db)" fun t =>
    match t.kind with
    | .device slot => some (t.pos, slot)
    | _ => none
  keyword .as_
  let x ← name "alias name"
  symbol .semicolon
  return .nameSlot pos slotPos slot x

/-- `name = literal;` -/
def constRest (pos : Position) : Reader Stmt := do
  let x ← name "constant name"
  symbol .assign
  let (valuePos, value) ← literal
  symbol .semicolon
  return .const pos x valuePos value

/-- `name = expression;` -/
def defineRest (pos : Position) : Reader Stmt := do
  let x ← name "variable name"
  symbol .assign
  let value ← expression
  symbol .semicolon
  return .define pos x value

/-- `name(parameters) block` -/
def functionRest (statement : Token → Reader Stmt) (pos : Position) : Reader Stmt := do
  let x ← name "function name"
  let params ← parenthesized (name "parameter name")
  let (bodyPos, body) ← block statement
  return .function pos x params bodyPos body

def loopRest (statement : Token → Reader Stmt) (pos : Position) : Reader Stmt := do
  let (bodyPos, body) ← block statement
  return .loop pos bodyPos body

/-- `(expression) block`, and perhaps `else block` -/
def ifRest (statement : Token → Reader Stmt) (pos : Position) : Reader Stmt := do
  symbol .lparen
  let condition ← expression
  symbol .rparen
  let (thenPos, thenBody) ← block statement
  if ← accept (.keyword .else_) then
    let (elsePos, elseBody) ← block statement
    return .ifElse pos condition thenPos thenBody elsePos elseBody
  else
    return .ifThen pos condition thenPos thenBody

/-- `device.property into name;` -/
def readRest (pos : Position) : Reader Stmt := do
  let (device, property) ← deviceProperty
  keyword .into
  let target ← name "variable name"
  symbol .semicolon
  return .read pos device property target

/-- `expression into device.property;` -/
def writeRest (pos : Position) : Reader Stmt := do
  let value ← expression
  keyword .into
  let (device, property) ← deviceProperty
  symbol .semicolon
  return .write pos value device property

/-- `= expression;` or `(arguments);` after a name -/
def nameRest (x : Name) : Reader Stmt := fun ts =>
  if startsWith .assign ts then assignment ts
  else if startsWith .lparen ts then call ts
  else .error (.unexpected "'=' or '(' after a name" ts)
where
  startsWith (s : Symbol) (ts : List Token) : Bool := ts.head?.any (·.kind = .symbol s)
  assignment : Reader Stmt := do
    symbol .assign
    let value ← expression
    symbol .semicolon
    return .assign x value
  call : Reader Stmt := do
    let args ← parenthesized expression
    symbol .semicolon
    return .call x args

/-- The rest of a statement after its first token. Statements stand inside at most `depth`
further levels of blocks. -/
def statement : (depth : Nat) → Token → Reader Stmt
  | 0, t => fail ⟨.nestingTooDeep, t.pos⟩
  | depth + 1, t =>
    match t.kind with
    | .keyword .def_ => nameSlotRest t.pos
    | .keyword .const => constRest t.pos
    | .keyword .let_ => defineRest t.pos
    | .keyword .fn => functionRest (statement depth) t.pos
    | .keyword .loop => loopRest (statement depth) t.pos
    | .keyword .if_ => ifRest (statement depth) t.pos
    | .keyword .read => readRest t.pos
    | .keyword .write => writeRest t.pos
    | .keyword .yield => do
      symbol .semicolon
      return .yield t.pos
    | .symbol .lbrace => do
      let body ← blockRest (statement depth)
      return .block t.pos body
    | .name text => nameRest ⟨text, t.pos⟩
    | _ => fun ts => .error (.unexpected "statement" (t :: ts))

end Reader

namespace Program

def parse (tokens : List Token) (limits : Limits := {}) : Except ParseFault Program :=
  match Reader.many (fun _ => false) (Reader.statement limits.nesting) tokens with
  | .error fault => .error fault
  | .ok ⟨(statements, _), _⟩ => .ok ⟨statements⟩

end Program

end Chipwright
