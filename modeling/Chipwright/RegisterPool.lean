import Chipwright.Failure

/-!
# Register pools

Registers are handed out by scope: each open scope has a frame of the registers taken in
it, and all of them are free again when the scope is left. The lowest free register comes
first.
-/
namespace Chipwright

structure RegisterPool where
  /-- The number of general registers that may be handed out. -/
  size : Nat
  /-- Registers that are never handed out. -/
  reserved : List Register
  /-- The frame of the innermost open scope, in the order of allocation. -/
  innermost : List Register
  /-- The frames of the enclosing scopes, from the inside out. -/
  outer : List (List Register)
  /-- Every register handed out so far. -/
  used : List Register

namespace RegisterPool

/-- A pool with one empty frame. -/
def fresh (size : Nat) (reserved : List Register) : RegisterPool := ⟨size, reserved, [], [], []⟩

/-- A pool of a size that the chip has. -/
def ofCount (count : Int) (reserved : List Register) : Except Failure RegisterPool :=
  if 1 ≤ count ∧ count ≤ Register.generalCount then .ok (fresh count.toNat reserved)
  else .error (.registerCount count)

def frames (p : RegisterPool) : List (List Register) := p.innermost :: p.outer

/-- The number of open frames. -/
def depth (p : RegisterPool) : Nat := p.frames.length

/-- The registers that must not be overwritten now. -/
def live (p : RegisterPool) : List Register := p.reserved ++ p.frames.flatten

/-- The lowest register that is not live. -/
def free? (p : RegisterPool) : Option Register :=
  (Register.general p.size).find? (!p.live.contains ·)

def allocate? (p : RegisterPool) : Option (Register × RegisterPool) :=
  p.free?.map fun r => (r, { p with innermost := p.innermost ++ [r], used := r :: p.used })

/-- Takes the lowest free register for a construct of the program. -/
def allocate (construct : String) (location : Option Location) (p : RegisterPool) :
    Except Failure (Register × RegisterPool) :=
  match p.allocate? with
  | some r => .ok r
  | none => .error (.diagnostic { cause := .outOfRegisters construct p.size, location })

/-- Gives back a register of the innermost frame. -/
def release (r : Register) (p : RegisterPool) : Except Failure RegisterPool :=
  if p.innermost.contains r then .ok { p with innermost := p.innermost.erase r }
  else .error (.notAllocated r)

def push (p : RegisterPool) : RegisterPool :=
  { p with innermost := [], outer := p.innermost :: p.outer }

/-- Closes the innermost frame and gives the registers that were taken in it. -/
def pop (p : RegisterPool) : Except Failure (List Register × RegisterPool) :=
  match p.outer with
  | [] => .error .outermostFrame
  | frame :: frames => .ok (p.innermost, { p with innermost := frame, outer := frames })

end RegisterPool

end Chipwright
