import Chipwright.Program.Operator

/-!
# Reading tokens

A reader takes tokens from the front of a list. What it leaves is never longer than what
it was given, so a loop that takes a token in each round ends.
-/
namespace Chipwright

/-- What a reader gives: a value and the tokens it leaves. -/
abbrev Reading (α : Type) (ts : List Token) :=
  { r : α × List Token // r.2.length ≤ ts.length }

def Reader (α : Type) := (ts : List Token) → Except ParseFault (Reading α ts)

namespace Reader

variable {α β : Type}

def pure (a : α) : Reader α := fun ts => .ok ⟨(a, ts), Nat.le_refl _⟩

def bind (p : Reader α) (f : α → Reader β) : Reader β := fun ts =>
  match p ts with
  | .error fault => .error fault
  | .ok ⟨(a, rest), h⟩ =>
    match f a rest with
    | .error fault => .error fault
    | .ok ⟨r, h'⟩ => .ok ⟨r, Nat.le_trans h' h⟩

instance : Monad Reader where
  pure := pure
  bind := bind

def fail (fault : ParseFault) : Reader α := fun _ => .error fault

/-- Takes the token at the front if it is of the given kind. -/
def accept (kind : TokenKind) : Reader Bool
  | [] => .ok ⟨(false, []), Nat.le_refl _⟩
  | t :: ts =>
    if t.kind = kind then .ok ⟨(true, ts), Nat.le_succ _⟩
    else .ok ⟨(false, t :: ts), Nat.le_refl _⟩

/-- Takes a token of the given kind, which must be there, and gives its position. -/
def expect (kind : TokenKind) : Reader Position
  | [] => .error (.missing kind.text [])
  | t :: ts =>
    if t.kind = kind then .ok ⟨(t.pos, ts), Nat.le_succ _⟩
    else .error (.missing kind.text (t :: ts))

def symbol (s : Symbol) : Reader Unit := do
  let _ ← expect (.symbol s)

def keyword (k : Keyword) : Reader Unit := do
  let _ ← expect (.keyword k)

/-- Takes a token for which `pick` gives a value. -/
def take (expected : String) (pick : Token → Option α) : Reader α
  | [] => .error (.unexpected expected [])
  | t :: ts =>
    match pick t with
    | some a => .ok ⟨(a, ts), Nat.le_succ _⟩
    | none => .error (.unexpected expected (t :: ts))

def name (expected : String) : Reader Name :=
  take expected fun t =>
    match t.kind with
    | .name text => some ⟨text, t.pos⟩
    | _ => none

def expression : Reader Expr := fun ts =>
  match h : Operator.read [] .operand ts with
  | .error fault => .error fault
  | .ok r => .ok ⟨r, Operator.read_length_le h⟩

/-- Items up to the end of the tokens or to one that `stop` picks. The first token of an
item is taken for it. -/
def many (stop : TokenKind → Bool) (item : Token → Reader α) (ts : List Token) :
    Except ParseFault (Reading (List α) ts) :=
  match ts with
  | [] => .ok ⟨([], []), Nat.le_refl _⟩
  | t :: rest =>
    if stop t.kind then .ok ⟨([], t :: rest), Nat.le_refl _⟩
    else
      match item t rest with
      | .error fault => .error fault
      | .ok ⟨(a, ts₁), h₁⟩ =>
        match many stop item ts₁ with
        | .error fault => .error fault
        | .ok ⟨(as, ts₂), h₂⟩ =>
          .ok ⟨(a :: as, ts₂), by simp only [List.length_cons] at *; omega⟩
termination_by ts.length
decreasing_by simp only [List.length_cons] at *; omega

/-- A list goes on with a comma only. -/
def endsList (kind : TokenKind) : Bool := kind ≠ .symbol .comma

/-- What follows the first item of a list: a comma and an item, over and over. -/
def commaTail (item : Reader α) : Reader (List α) := many endsList fun _ => item

/-- Items with commas between them, up to a closing parenthesis. -/
def parenthesized (item : Reader α) : Reader (List α) := do
  symbol .lparen
  if ← accept (.symbol .rparen) then
    return []
  let first ← item
  let others ← commaTail item
  symbol .rparen
  return first :: others

end Reader

end Chipwright
