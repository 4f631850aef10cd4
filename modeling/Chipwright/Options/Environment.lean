import Chipwright.Decimal.Numeral
import Chipwright.Options
import Chipwright.Text.Quoted

/-!
# Options from the environment

Defaults for the options may be set in environment variables. A number that is out of range
is left out with a warning; an empty one counts as not set.
-/
namespace Chipwright.Options

/-- The values of the environment variables that are set. -/
abbrev Environment := List (String × String)

def maxLinesVariable : String := "AYYSEE_MAX_LINES"

def registerCountVariable : String := "AYYSEE_REGISTER_COUNT"

def emitAliasesVariable : String := "AYYSEE_EMIT_ALIASES"

def emitCommentsVariable : String := "AYYSEE_EMIT_COMMENTS"

def strictPropertiesVariable : String := "AYYSEE_STRICT_PROPERTIES"

def requireYieldVariable : String := "AYYSEE_REQUIRE_YIELD"

/-- The variables that are looked at. -/
def variableNames : List String :=
  [maxLinesVariable, registerCountVariable, emitAliasesVariable, emitCommentsVariable,
    strictPropertiesVariable, requireYieldVariable]

/-- Whether a value switches a flag on. -/
def isOn (value : String) : Bool :=
  ["1", "true", "yes", "on"].contains
    (String.ofList ((Text.trim Text.isBlank value.toList).map Char.toLower))

/-- A number from a variable, where `valid` says which numbers make sense. -/
def number (env : Environment) (name : String) (valid : Int → Bool) (default : Int) :
    Int × List LogRecord :=
  match env.lookup name with
  | none => (default, [])
  | some value =>
    if value.isEmpty then (default, [])
    else
      match (Decimal.whole? value).filter valid with
      | some n => (n, [])
      | none => (default, [⟨.warning, s!"Ignoring invalid {name}={Text.quoted value}"⟩])

def flag (env : Environment) (name : String) (default : Bool) : Bool :=
  match env.lookup name with
  | none => default
  | some value => isOn value

/-- The options that an environment sets, and warnings on what it sets wrongly. -/
def ofEnvironment (env : Environment) : Options × List LogRecord :=
  let base : Options := {}
  let (maxLines, log₁) := number env maxLinesVariable (1 ≤ ·) base.maxLines
  let (registerCount, log₂) := number env registerCountVariable
    (fun n => 1 ≤ n && n ≤ Register.generalCount) base.registerCount
  let options := {
    maxLines
    registerCount
    emitAliases := flag env emitAliasesVariable base.emitAliases
    emitComments := flag env emitCommentsVariable base.emitComments
    strictProperties := flag env strictPropertiesVariable base.strictProperties
    requireYield := flag env requireYieldVariable base.requireYield }
  (options, log₁ ++ log₂)

end Chipwright.Options
