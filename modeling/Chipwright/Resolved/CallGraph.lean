import Chipwright.Failure
import Chipwright.Resolved.Tree

/-!
# Calls between functions

Which function calls which. A function never calls itself, through others or directly,
since the chip keeps a single return address; so the functions can be put into an order
with every caller before what it calls.
-/
namespace Chipwright.Resolved

/-- A call, made in a function or, where there is none, in the top-level code. -/
structure CallSite where
  caller : Option String
  callee : String
  pos : Position
  deriving DecidableEq

structure CallGraph where
  /-- The functions, in the order of the source. -/
  functions : List String
  /-- All calls, in the order of the source. -/
  sites : List CallSite

mutual

def Stmt.calls (caller : Option String) : Stmt → List CallSite
  | .block body => Stmt.callsAll caller body
  | .call pos f _ => [⟨caller, f.name, pos⟩]
  | .loop _ body => Stmt.callsAll caller body
  | .ifThen _ _ thenBody => Stmt.callsAll caller thenBody
  | .ifElse _ _ thenBody elseBody =>
    Stmt.callsAll caller thenBody ++ Stmt.callsAll caller elseBody
  | _ => []

def Stmt.callsAll (caller : Option String) : List Stmt → List CallSite
  | [] => []
  | s :: ss => s.calls caller ++ Stmt.callsAll caller ss

end

def Item.calls : Item → List CallSite
  | func f => Stmt.callsAll (some f.name) f.body
  | stmt s => s.calls none
  | _ => []

def Program.callGraph (p : Program) : CallGraph :=
  ⟨p.functions.map (·.name), p.items.flatMap Item.calls⟩

namespace CallGraph

def sitesIn (caller : Option String) (g : CallGraph) : List CallSite :=
  g.sites.filter (·.caller = caller)

/-- What a function calls, each callee once, in the order of the first calls. -/
def callees (caller : Option String) (g : CallGraph) : List String :=
  ((g.sitesIn caller).map (·.callee)).eraseDups

/-! ## Cycles -/

/-- Why the calls are refused. -/
inductive Fault
  /-- The calls from each function of a list to the next, of which the last is at `pos`, come
  back to the start. -/
  | cycle (functions : List String) (pos : Position)
  | tooDeep

def Fault.failure (file : String) : Fault → Failure
  | cycle functions pos => .located file pos (.recursiveCall functions)
  | tooDeep => .tooDeep

/-- Follows calls that the last function of a path makes, with `visit` for the rest of each
chain. -/
def visitSites (visit : List String → String → List String → Except Fault (List String))
    (path : List String) : List CallSite → List String → Except Fault (List String)
  | [], done => .ok done
  | site :: sites, done =>
    if path.contains site.callee then
      .error (.cycle (path.dropWhile (· ≠ site.callee) ++ [site.callee]) site.pos)
    else do
      let done ← visit (path ++ [site.callee]) site.callee done
      visitSites visit path sites done

/-- Follows all chains of calls from a function, which is the last one of `path`. `done`
holds functions that no cycle can be reached from, and grows by the function. -/
def visit (g : CallGraph) : Nat → List String → String → List String →
    Except Fault (List String)
  | 0, _, _, _ => .error .tooDeep
  | budget + 1, path, name, done =>
    if done.contains name then .ok done
    else do
      let done ← visitSites (g.visit budget) path (g.sitesIn (some name)) done
      return name :: done

/-- Follows all chains from some functions, each at most `limit` functions long. -/
def visitAll (g : CallGraph) (limit : Nat) :
    List String → List String → Except Fault (List String)
  | [], done => .ok done
  | name :: names, done => do
    let done ← g.visit limit [name] name done
    g.visitAll limit names done

/-- Refuses a program in which a function can call itself. -/
def check (file : String) (limit : Nat) (g : CallGraph) : Except Failure Unit :=
  match g.visitAll limit g.functions [] with
  | .ok _ => .ok ()
  | .error fault => .error (fault.failure file)

/-! ## Order -/

/-- How many functions call each function. -/
def callerCounts (g : CallGraph) : List (String × Nat) :=
  let called := g.functions.map fun caller => g.callees (some caller)
  g.functions.map fun name => (name, called.countP (·.contains name))

/-- Removes one caller from the counts of the functions that it calls. -/
def uncount (called : List String) (waiting : List (String × Nat)) : List (String × Nat) :=
  waiting.map fun (name, n) => (name, if called.contains name then n - 1 else n)

/-- Takes out the first function that waits for no caller, again and again. -/
def orderFrom (g : CallGraph) : Nat → List (String × Nat) → List String
  | 0, _ => []
  | steps + 1, waiting =>
    match waiting.find? (·.2 = 0) with
    | none => []
    | some (name, _) =>
      name :: g.orderFrom steps
        (uncount (g.callees (some name)) (waiting.eraseP (·.2 = 0)))

/-- The functions with every caller before what it calls; where that leaves a choice, the
function that comes first in the source. -/
def order (g : CallGraph) : List String :=
  g.orderFrom g.functions.length g.callerCounts

end CallGraph

/-- The functions of a program, callers first. -/
def Program.functionOrder (p : Program) : List String := p.callGraph.order

end Chipwright.Resolved
