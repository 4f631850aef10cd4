import Chipwright.Chip.Register

/-!
# Options and log

What a caller of the compiler sets, and what the compiler tells of its work as it goes.
-/
namespace Chipwright

/-! ## Options -/

/-- How deep the compiler can go into a program before its own stack is full. The defaults are for
a stack of a thousand activations. -/
structure Limits where
  /-- How deep statements may stand inside one another. -/
  nesting : Nat := 256
  /-- How long the chains of calls are that are followed. -/
  chain : Nat := 900
  /-- How many blocks and calls, each inside the one before, a search for a `yield` goes into. -/
  search : Nat := 900
  deriving DecidableEq

structure Options where
  /-- The number of lines that the chip has room for. -/
  maxLines : Int := 128
  /-- The number of general registers that may be used. -/
  registerCount : Int := Register.generalCount
  /-- Whether names of devices are told to the chip. -/
  emitAliases : Bool := true
  /-- Whether lines say which construct they come from. -/
  emitComments : Bool := false
  /-- Whether a device property must be one of the known ones. -/
  strictProperties : Bool := false
  /-- Whether a loop that never yields is an error. -/
  requireYield : Bool := false
  limits : Limits := {}
  deriving DecidableEq

/-! ## Log -/

inductive Level
  | debug
  | info
  | warning
  deriving DecidableEq

def Level.text : Level → String
  | debug => "DEBUG"
  | info => "INFO"
  | warning => "WARNING"

structure LogRecord where
  level : Level
  message : String
  deriving DecidableEq

def LogRecord.text (r : LogRecord) : String := s!"{r.level.text}: {r.message}"

end Chipwright
