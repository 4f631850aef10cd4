import Chipwright.Resolved.CallGraph

/-!
# Search for a yield

Whether a block of statements can come to a `yield`, its own or one of a function that it
calls. The search goes into blocks and into called functions. What it finds for a function is
remembered, and it gives up when it is too deep.
-/
namespace Chipwright.Resolved

/-- What may lead to a `yield`: itself, a block that it may stand in, or a function that may be
called. -/
inductive Way
  | yield
  | block (body : List Stmt)
  | function (name : String)

/-- The ways that start at a statement, in the order in which they are tried. -/
def Stmt.ways : Stmt → List Way
  | .yield _ => [.yield]
  | .block body => [.block body]
  | .call _ f _ => [.function f.name]
  | .loop _ body => [.block body]
  | .ifThen _ _ thenBody => [.block thenBody]
  | .ifElse _ _ thenBody elseBody => [.block thenBody, .block elseBody]
  | _ => []

/-- For each function that has been searched, whether it can come to a `yield`. -/
abbrev Memory := List (String × Bool)

/-- Whether a `yield` is found. What is remembered is looked up and added to. -/
abbrev Search := StateT Memory (Except Failure) Bool

theorem Search.anyM_cons_apply (search : Way → Search) (w : Way) (ws : List Way)
    (memory : Memory) :
    (w :: ws).anyM search memory = search w memory >>= fun (found, memory') =>
      if found then .ok (true, memory') else ws.anyM search memory' := by
  rw [List.anyM]
  refine congrArg (search w memory >>= ·) (funext fun (found, memory') => ?_)
  cases found <;> rfl

/-- Searches a way, at most `depth` blocks and calls deep. -/
def Program.search (p : Program) : Nat → Way → Search
  | _, .yield => return true
  | 0, _ => throw .tooDeep
  | depth + 1, .block body => (body.flatMap Stmt.ways).anyM (p.search depth)
  | depth + 1, .function name => fun memory =>
    match memory.lookup name, p.function? name with
    | some found, _ => .ok (found, memory)
    | none, none => .error (.unknownFunction name)
    | none, some f => do
      let (found, memory) ← p.search depth (.block f.body) memory
      return (found, (name, found) :: memory)

end Chipwright.Resolved
