import Chipwright.Proofs.World

/-!
# What programs mean

A program runs on named variables. A block has its own, which are gone when it ends; what is
defined outside all blocks are the variables of the top level. A function sees its parameters, the
variables it defines itself and those of the top level. Conditionals take their first branch
unless the condition is zero, loops go on for ever, and arguments are passed by value.

A run that uses a variable before its definition was executed has no meaning, nor has one that
uses a name for what it is not.

Loops and calls need not come to an end, so a run is given a bound: the number of times that loops
may go round and functions may be entered inside one another. What a run has done when the bound
is reached is the beginning of what it does with a greater one.
-/
namespace Chipwright

variable {V : Type}

/-- The variables of a block. If there are two of a name, the first one counts. -/
abbrev Frame (V : Type) := List (String × V)

/-- Gives a variable of a block a new value. -/
def Frame.assign (x : String) (a : V) : Frame V → Option (Frame V)
  | [] => none
  | (y, b) :: frame =>
    if x = y then some ((y, a) :: frame) else (assign x a frame).map ((y, b) :: ·)

/-- The variables that are visible, with their values. -/
structure Store (V : Type) where
  /-- The variables of the top level. -/
  root : Frame V
  /-- Those of the blocks that are open, the innermost first. -/
  blocks : List (Frame V)

namespace Store

/-- The value of the innermost variable with a name. -/
def find? (x : String) (s : Store V) : Option V :=
  (s.blocks ++ [s.root]).findSome? (·.lookup x)

/-- Defines a variable in the innermost block. -/
def define (x : String) (a : V) (s : Store V) : Store V :=
  match s.blocks with
  | [] => { s with root := (x, a) :: s.root }
  | frame :: frames => { s with blocks := ((x, a) :: frame) :: frames }

def assignBlocks (x : String) (a : V) : List (Frame V) → Option (List (Frame V))
  | [] => none
  | frame :: frames =>
    match frame.assign x a with
    | some frame => some (frame :: frames)
    | none => (assignBlocks x a frames).map (frame :: ·)

/-- Gives the innermost variable with a name a new value. -/
def assign (x : String) (a : V) (s : Store V) : Option (Store V) :=
  match assignBlocks x a s.blocks with
  | some blocks => some { s with blocks }
  | none => (s.root.assign x a).map fun root => { s with root }

/-- Opens a block. -/
def enter (s : Store V) : Store V := { s with blocks := [] :: s.blocks }

/-- Closes the innermost block. -/
def leave (s : Store V) : Store V := { s with blocks := s.blocks.tail }

/-- What a function sees when it is entered. -/
def entering (params : List Name) (args : List V) (s : Store V) : Store V :=
  ⟨s.root, [(params.map Name.text).zip args]⟩

/-- What a caller sees when a function has returned. -/
def returning (callee s : Store V) : Store V := ⟨callee.root, s.blocks⟩

end Store

/-- The value that a statement gives to a constant. -/
def Stmt.constant? (x : String) : Stmt → Option Literal
  | .const _ y _ value => if y.text = x then some value else none
  | _ => none

/-- The slot that a statement gives a name to. -/
def Stmt.slot? (x : String) : Stmt → Option Slot
  | .nameSlot _ _ slot y => if y.text = x then some slot else none
  | _ => none

/-- The parameters and the body of the function that a statement defines. -/
def Stmt.function? (x : String) : Stmt → Option (List Name × List Stmt)
  | .function _ y params _ body => if y.text = x then some (params, body) else none
  | _ => none

namespace Program

def constant? (p : Program) (x : String) : Option Literal :=
  p.statements.findSome? (·.constant? x)

/-- The slot of a device. -/
def slot? (p : Program) : Device → Option Slot
  | .direct _ slot => some slot
  | .named x => p.statements.findSome? (·.slot? x.text)

def function? (p : Program) (x : String) : Option (List Name × List Stmt) :=
  p.statements.findSome? (·.function? x)

end Program

/-- The value of an expression. A name that is no variable can be that of a constant. -/
def Expr.eval (w : World V) (p : Program) (s : Store V) : Expr → Option V
  | .literal _ c => some (w.literal c)
  | .name x => (s.find? x.text).or ((p.constant? x.text).map w.literal)
  | .not _ operand => (operand.eval w p s).map w.not
  | .binary op left right => do
    let a ← left.eval w p s
    let b ← right.eval w p s
    return w.binary op a b

def Expr.evalAll (w : World V) (p : Program) (s : Store V) : List Expr → Option (List V)
  | [] => some []
  | e :: es => do
    let a ← e.eval w p s
    let as ← evalAll w p s es
    return a :: as

/-- What executing statements comes to, from a store and the events so far. -/
abbrev Execution (V : Type) := Store V → List (Event V) → Outcome V (Store V)

namespace Stmt

variable (w : World V) (p : Program) (again : List Stmt → Execution V)

mutual

/-- Executes a statement; `again` goes round a loop once more, and executes a function. -/
def exec : Stmt → Execution V
  | .define _ x e, s, t => .ofOption (e.eval w p s) fun a => .done (s.define x.text a) t
  | .assign x e, s, t =>
    .ofOption (e.eval w p s) fun a => .ofOption (s.assign x.text a) fun s => .done s t
  | .block _ body, s, t => (execAll body s.enter t).bind fun s t => .done s.leave t
  | .call f args, s, t =>
    .ofOption (p.function? f.text) fun (params, body) =>
    .ofOption (Expr.evalAll w p s args) fun as =>
      if as.length = params.length then
        (again body (s.entering params as) t).bind fun callee t => .done (callee.returning s) t
      else .undefined
  | .loop pos bodyPos body, s, t =>
    (execAll body s.enter t).bind fun s t => again [.loop pos bodyPos body] s.leave t
  | .ifThen _ c _ thenBody, s, t =>
    .ofOption (c.eval w p s) fun a =>
      if w.isZero a then .done s t
      else (execAll thenBody s.enter t).bind fun s t => .done s.leave t
  | .ifElse _ c _ thenBody _ elseBody, s, t =>
    .ofOption (c.eval w p s) fun a =>
      if w.isZero a then (execAll elseBody s.enter t).bind fun s t => .done s.leave t
      else (execAll thenBody s.enter t).bind fun s t => .done s.leave t
  | .read _ device property x, s, t =>
    .ofOption (p.slot? device) fun slot =>
      let a := w.answer t slot property
      .ofOption (s.assign x.text a) fun s => .done s (t ++ [.read slot property a])
  | .write _ e device property, s, t =>
    .ofOption (e.eval w p s) fun a =>
    .ofOption (p.slot? device) fun slot => .done s (t ++ [.write slot property a])
  | .yield _, s, t => .done s (t ++ [.yield])
  | .nameSlot _ _ _ _, s, t => .done s t
  | .const _ _ _ _, s, t => .done s t
  | .function _ _ _ _ _, s, t => .done s t

/-- Executes statements one after another. -/
def execAll : List Stmt → Execution V
  | [], s, t => .done s t
  | st :: sts, s, t => (exec st s t).bind fun s t => execAll sts s t

end

end Stmt

/-- Executes statements with a bound. -/
def Program.execWithin (w : World V) (p : Program) : Nat → List Stmt → Execution V
  | 0, _, _, t => .cut t
  | n + 1, sts, s, t => Stmt.execAll w p (p.execWithin w n) sts s t

/-- A run of a program with a bound. -/
def Program.run (w : World V) (p : Program) (bound : Nat) : Outcome V Unit :=
  (p.execWithin w bound p.statements ⟨[], []⟩ []).observed

end Chipwright
