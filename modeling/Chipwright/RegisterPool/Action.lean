import Chipwright.RegisterPool

/-!
# Runs of a register pool

A pool under a sequence of calls, some of which may fail. A call that fails leaves the pool
as it is.
-/
namespace Chipwright.RegisterPool

inductive Action
  | allocate (construct : String) (location : Option Location)
  /-- Gives back the register with a number. -/
  | release (index : Int)
  | push
  | pop
  /-- Opens a frame, acts in it up to the first failure, and closes it in any case. -/
  | frame (actions : List Action)

inductive Answer
  | nothing
  | register (r : Register)
  | registers (rs : List Register)

/-- The answer to an action, and the pool after it. -/
structure Record where
  answer : Except Failure Answer
  pool : RegisterPool

/-- What follows from an action that fails, or succeeds with a changed pool. -/
def Record.ofResult (before : RegisterPool) :
    Except Failure (Answer × RegisterPool) → Record
  | .ok (answer, pool) => ⟨.ok answer, pool⟩
  | .error e => ⟨.error e, before⟩

def releaseIndex (index : Int) (p : RegisterPool) : Except Failure (Answer × RegisterPool) := do
  let r ← (Register.ofIndex index).mapError Failure.chip
  let p ← p.release r
  return (.nothing, p)

/-- Closes a frame in which the given failure, if any, has occurred. -/
def closeFrame (failure : Option Failure) (p : RegisterPool) : Record :=
  match p.pop, failure with
  | .error e, _ => ⟨.error e, p⟩
  | .ok (_, p), some e => ⟨.error e, p⟩
  | .ok (_, p), none => ⟨.ok .nothing, p⟩

mutual

/-- The records of all that an action does. The last one is its own. -/
def perform : Action → RegisterPool → List Record × Record
  | .allocate construct location, p =>
    ([], .ofResult p ((p.allocate construct location).map fun (r, p) => (.register r, p)))
  | .release index, p => ([], .ofResult p (p.releaseIndex index))
  | .push, p => ([], ⟨.ok .nothing, p.push⟩)
  | .pop, p => ([], .ofResult p (p.pop.map fun (rs, p) => (.registers rs, p)))
  | .frame actions, p =>
    let (records, failure, inner) := performUntil actions p.push
    (records, inner.closeFrame failure)

/-- Actions up to the first one that fails, with that failure and the pool then. -/
def performUntil : List Action → RegisterPool → List Record × Option Failure × RegisterPool
  | [], p => ([], none, p)
  | action :: actions, p =>
    let (records, record) := perform action p
    match record.answer with
    | .error e => (records ++ [record], some e, record.pool)
    | .ok _ =>
      let (later, failure, last) := performUntil actions record.pool
      (records ++ record :: later, failure, last)

end

/-- The records of actions one after another, whether they fail or not. -/
def performAll : List Action → RegisterPool → List Record
  | [], _ => []
  | action :: actions, p =>
    let (records, record) := perform action p
    records ++ record :: performAll actions record.pool

end Chipwright.RegisterPool
