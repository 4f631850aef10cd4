import Chipwright.Failure

/-!
# Scopes

Scopes nest as blocks do, and each of them gives names a meaning, whatever that is. A name
means the innermost definition that is visible, and a scope defines a name once.
-/
namespace Chipwright

/-- What a scope belongs to. -/
inductive ScopeKind
  | root
  | function
  | loop
  | if_
  | else_
  | block
  | other (text : String)
  deriving DecidableEq

namespace ScopeKind

def text : ScopeKind → String
  | root => "root"
  | function => "function"
  | loop => "loop"
  | if_ => "if"
  | else_ => "else"
  | block => "block"
  | other text => text

def ofText (text : String) : ScopeKind :=
  ([root, function, loop, if_, else_, block].find? (·.text = text)).getD (other text)

end ScopeKind

/-- One scope with its definitions, in the order in which they were made. -/
structure Scope (α : Type) where
  kind : ScopeKind
  entries : List (String × α) := []

namespace Scope

variable {α : Type}

def find? (name : String) (s : Scope α) : Option α := s.entries.lookup name

def names (s : Scope α) : List String := s.entries.map (·.1)

end Scope

/-- The open scopes. -/
structure Scopes (α : Type) where
  inner : Scope α
  /-- The enclosing scopes, from the inside out. -/
  outer : List (Scope α) := []

namespace Scopes

variable {α : Type}

/-- The root scope, with nothing in it. -/
def root : Scopes α := { inner := { kind := .root } }

def depth (s : Scopes α) : Nat := s.outer.length

def isRoot (s : Scopes α) : Bool := s.outer.isEmpty

def enter (kind : ScopeKind) (s : Scopes α) : Scopes α := ⟨{ kind }, s.inner :: s.outer⟩

/-- Leaves the innermost scope. The root stays. -/
def leave (s : Scopes α) : Scopes α :=
  match s.outer with
  | [] => s
  | scope :: scopes => ⟨scope, scopes⟩

def all (s : Scopes α) : List (Scope α) := s.inner :: s.outer

/-- The innermost definition of a name. -/
def lookup? (name : String) (s : Scopes α) : Option α := s.all.findSome? (·.find? name)

/-- All names that are defined, the innermost scope first. -/
def visibleNames (s : Scopes α) : List String := s.all.flatMap Scope.names

/-- Adds a definition to the innermost scope; `place` says where a definition stands. -/
def define (place : α → Location) (name : String) (a : α) (s : Scopes α) :
    Except Failure (Scopes α) :=
  match s.inner.find? name with
  | some first =>
    .error (.diagnostic {
      cause := .duplicate name (some (place first))
      location := some (place a) })
  | none => .ok { s with inner := { s.inner with entries := s.inner.entries ++ [(name, a)] } }

end Scopes

end Chipwright
