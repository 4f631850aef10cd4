/-!
# Registers

The chip has sixteen general registers, a stack pointer and a return address.
-/
namespace Chipwright

/-- A register by its number: 0 to 15 are general, 16 is the stack pointer, 17 holds the
return address. -/
structure Register where
  index : Fin 18
  deriving DecidableEq

namespace Register

def sp : Register := ⟨16⟩

def ra : Register := ⟨17⟩

def all : List Register := (List.finRange 18).map mk

/-- The number of general registers. -/
def generalCount : Nat := 16

/-- The first `n` general registers. -/
def general (n : Nat) : List Register := (all.take generalCount).take n

def name (r : Register) : String :=
  if r = sp then "sp" else if r = ra then "ra" else s!"r{r.index.val}"

def ofIndex? (n : Int) : Option Register :=
  if h : 0 ≤ n ∧ n < 18 then some ⟨⟨n.toNat, by omega⟩⟩ else none

/-- The registers that occur in a list, each once, by number. -/
def sorted (rs : List Register) : List Register := all.filter (rs.contains ·)

end Register

end Chipwright
