import Chipwright.Options
import Chipwright.Resolved.CallGraph
import Chipwright.Scope
import Chipwright.Text.Similarity

/-!
# Resolving names

Finds what every name stands for. Names of devices, constants and functions count from the
start of the program; a variable counts from the end of its definition to the end of its
block. A function sees the variables of the top level that are defined before it.
-/
namespace Chipwright.Resolved

/-- What stays the same while one function, or the top-level code, is resolved. -/
structure Context where
  file : String
  /-- Whether a device property must be one of the known ones. -/
  strict : Bool
  function : Option String := none

/-- The open scopes and the number of the next variable. -/
structure Env where
  scopes : Scopes Binding
  next : Nat

namespace Context

def fail {α : Type} (ctx : Context) (pos : Position) (cause : Cause) : Except Failure α :=
  .error (.located ctx.file pos cause)

/-- What a name stands for at this place. -/
def lookup (ctx : Context) (scopes : Scopes Binding) (x : Name) : Except Failure Binding :=
  match scopes.lookup? x.text with
  | some b => .ok b
  | none =>
    ctx.fail x.pos (.unresolved x.text (Text.closest x.text scopes.visibleNames))

/-- A name in an expression. -/
def value (ctx : Context) (scopes : Scopes Binding) (x : Name) : Except Failure Expr := do
  match ← ctx.lookup scopes x with
  | .var v => return .var x.pos v
  | .const c => return .const x.pos c
  | b => ctx.fail x.pos (.wrongKind x.text b.kind "value")

/-- A name that is assigned to. -/
def target (ctx : Context) (scopes : Scopes Binding) (x : Name) : Except Failure Variable := do
  match ← ctx.lookup scopes x with
  | .var v => return v
  | .func f => ctx.fail x.pos (.wrongKind x.text (Binding.func f).kind "variable")
  | b => ctx.fail x.pos (.immutable x.text b.kind)

/-- A name that is called. -/
def callee (ctx : Context) (scopes : Scopes Binding) (x : Name) : Except Failure FunctionHead := do
  match ← ctx.lookup scopes x with
  | .func f => return f
  | b => ctx.fail x.pos (.wrongKind x.text b.kind "function")

def device (ctx : Context) (scopes : Scopes Binding) : Chipwright.Device → Except Failure Device
  | .direct pos slot => .ok (.direct pos slot)
  | .named x => do
    match ← ctx.lookup scopes x with
    | .device d => return .named x.pos d
    | b => ctx.fail x.pos (.wrongKind x.text b.kind "device")

def checkProperty (ctx : Context) (pos : Position) (property : String) : Except Failure Unit :=
  if ctx.strict && !knownProperties.contains property then
    ctx.fail pos (.unknownProperty property (Text.closest property knownProperties))
  else .ok ()

def expr (ctx : Context) (scopes : Scopes Binding) : Chipwright.Expr → Except Failure Expr
  | .literal pos value => .ok (.literal pos value)
  | .name x => ctx.value scopes x
  | .not pos operand => do
    let operand ← ctx.expr scopes operand
    return .not pos operand
  | .binary op left right => do
    let left ← ctx.expr scopes left
    let right ← ctx.expr scopes right
    return .binary op left right

def exprs (ctx : Context) (scopes : Scopes Binding) :
    List Chipwright.Expr → Except Failure (List Expr)
  | [] => .ok []
  | e :: es => do
    let e ← ctx.expr scopes e
    let es ← ctx.exprs scopes es
    return e :: es

/-- Defines a variable in the innermost scope. -/
def newVariable (ctx : Context) (x : Name) (env : Env) : Except Failure (Variable × Env) := do
  let v : Variable := ⟨env.next, x.text, x.pos, env.scopes.depth, ctx.function⟩
  let scopes ← env.scopes.define (·.place ctx.file) v.name (.var v)
  return (v, ⟨scopes, env.next + 1⟩)

def newVariables (ctx : Context) : List Name → Env → Except Failure (List Variable × Env)
  | [], env => .ok ([], env)
  | x :: xs, env => do
    let (v, env) ← ctx.newVariable x env
    let (vs, env) ← ctx.newVariables xs env
    return (v :: vs, env)

/-- Runs a step in a scope of its own. -/
def inScope {α : Type} (kind : ScopeKind) (env : Env)
    (step : Env → Except Failure (α × Env)) : Except Failure (α × Env) := do
  let (a, inner) ← step { env with scopes := env.scopes.enter kind }
  return (a, { inner with scopes := inner.scopes.leave })

mutual

/-- A statement inside a function or the top-level code. -/
def stmt (ctx : Context) : Chipwright.Stmt → Env → Except Failure (Stmt × Env)
  | .nameSlot _ _ _ x, _ => ctx.fail x.pos (.misplaced "def" x.text)
  | .const _ x _ _, _ => ctx.fail x.pos (.misplaced "const" x.text)
  | .function _ x _ _ _, _ => ctx.fail x.pos (.misplaced "fn" x.text)
  | .define pos x value, env => do
    let value ← ctx.expr env.scopes value
    let (v, env) ← ctx.newVariable x env
    return (.define pos v value, env)
  | .assign x value, env => do
    let value ← ctx.expr env.scopes value
    let v ← ctx.target env.scopes x
    return (.assign x.pos v value, env)
  | .block _ body, env => do
    let (body, env) ← inScope .block env (ctx.stmts body)
    return (.block body, env)
  | .call x args, env => do
    let f ← ctx.callee env.scopes x
    if args.length ≠ f.arity then
      ctx.fail x.pos (.argumentCount f.name f.arity args.length)
    let args ← ctx.exprs env.scopes args
    return (.call x.pos f args, env)
  | .loop pos _ body, env => do
    let (body, env) ← inScope .loop env (ctx.stmts body)
    return (.loop pos body, env)
  | .ifThen pos condition _ thenBody, env => do
    let condition ← ctx.expr env.scopes condition
    let (thenBody, env) ← inScope .if_ env (ctx.stmts thenBody)
    return (.ifThen pos condition thenBody, env)
  | .ifElse pos condition _ thenBody _ elseBody, env => do
    let condition ← ctx.expr env.scopes condition
    let (thenBody, env) ← inScope .if_ env (ctx.stmts thenBody)
    let (elseBody, env) ← inScope .else_ env (ctx.stmts elseBody)
    return (.ifElse pos condition thenBody elseBody, env)
  | .read pos device property x, env => do
    let device ← ctx.device env.scopes device
    ctx.checkProperty pos property
    let v ← ctx.target env.scopes x
    return (.read pos device property x.pos v, env)
  | .write pos value device property, env => do
    let value ← ctx.expr env.scopes value
    let device ← ctx.device env.scopes device
    ctx.checkProperty pos property
    return (.write pos value device property, env)
  | .yield pos, env => .ok (.yield pos, env)

/-- Statements one after another in the innermost scope. -/
def stmts (ctx : Context) : List Chipwright.Stmt → Env → Except Failure (List Stmt × Env)
  | [], env => .ok ([], env)
  | s :: ss, env => do
    let (s, env) ← ctx.stmt s env
    let (ss, env) ← ctx.stmts ss env
    return (s :: ss, env)

end

/-- A function: its parameters and its body share a scope. -/
def functionItem (ctx : Context) (pos : Position) (head : FunctionHead) (params : List Name)
    (body : List Chipwright.Stmt) (env : Env) : Except Failure (Function × Env) := do
  let ctx := { ctx with function := some head.name }
  inScope .function env fun env => do
    let (params, env) ← ctx.newVariables params env
    let (body, env) ← ctx.stmts body env
    return (⟨pos, head, params, body⟩, env)

/-- A statement of the top level. -/
def item (ctx : Context) : Chipwright.Stmt → Env → Except Failure (Item × Env)
  | .nameSlot pos slotPos slot x, env => .ok (.nameSlot pos slotPos ⟨x.text, x.pos, slot⟩, env)
  | .const _ x _ value, env => .ok (.const ⟨x.text, x.pos, value⟩, env)
  | .function pos x params _ body, env => do
    let (f, env) ← ctx.functionItem pos ⟨x.text, x.pos, params.length⟩ params body env
    return (.func f, env)
  | s, env => do
    let (s, env) ← ctx.stmt s env
    return (.stmt s, env)

def items (ctx : Context) : List Chipwright.Stmt → Env → Except Failure (List Item × Env)
  | [], env => .ok ([], env)
  | s :: ss, env => do
    let (i, env) ← ctx.item s env
    let (is, env) ← ctx.items ss env
    return (i :: is, env)

end Context

/-- What a top-level statement defines for the whole program. -/
def globalBinding? : Chipwright.Stmt → Option Binding
  | .nameSlot _ _ slot x => some (.device ⟨x.text, x.pos, slot⟩)
  | .const _ x _ value => some (.const ⟨x.text, x.pos, value⟩)
  | .function _ x params _ _ => some (.func ⟨x.text, x.pos, params.length⟩)
  | _ => none

/-- The root scope with the names that count from the start of the program. -/
def globals (file : String) :
    List Chipwright.Stmt → Scopes Binding → Except Failure (Scopes Binding)
  | [], scopes => .ok scopes
  | s :: ss, scopes =>
    match globalBinding? s with
    | none => globals file ss scopes
    | some b => do
      let scopes ← scopes.define (·.place file) b.name b
      globals file ss scopes

/-- Finds what every name of a program stands for. -/
def Context.program (ctx : Context) (p : Chipwright.Program) : Except Failure Program := do
  let scopes ← globals ctx.file p.statements .root
  let (items, _) ← ctx.items p.statements ⟨scopes, 0⟩
  return ⟨items⟩

end Chipwright.Resolved

namespace Chipwright

/-- A program with its names resolved. No function may call itself, through others or
directly. -/
def Program.resolve (file : String) (strict : Bool) (p : Program) (limits : Limits := {}) :
    Except Failure Resolved.Program := do
  let resolved ← Resolved.Context.program { file, strict } p
  resolved.callGraph.check file limits.chain
  return resolved

end Chipwright
