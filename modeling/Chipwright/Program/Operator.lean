import Chipwright.Diagnostic
import Chipwright.Program.Tree
import Chipwright.Token

/-!
# From tokens to expressions

Reads an expression token by token. Operators wait until the operand to their right is
complete: each waiting binary operator holds its left operand, so that what has been read
is always one chain of waiting operators and at most one operand. An incoming operator
first completes the waiting ones that bind at least as tightly.
-/
namespace Chipwright

/-- Why tokens are no program. Without a position the fault is at the end of the text. -/
structure ParseFault where
  cause : Cause
  pos : Option Position

namespace ParseFault

/-- The token at the front is none of those that may stand there. -/
def unexpected (expected : String) (ts : List Token) : ParseFault :=
  ⟨.unexpectedToken (Token.textAtFront ts) (some expected), ts.head?.map (·.pos)⟩

/-- The one token that may stand at the front is missing. -/
def missing (expected : String) (ts : List Token) : ParseFault :=
  ⟨.missingToken expected (Token.textAtFront ts), ts.head?.map (·.pos)⟩

end ParseFault

def BinaryOp.ofSymbol? : Symbol → Option BinaryOp
  | .plus => some .add
  | .minus => some .sub
  | .star => some .mul
  | .slash => some .div
  | .eq => some .eq
  | .ne => some .ne
  | .lt => some .lt
  | .gt => some .gt
  | .le => some .le
  | .ge => some .ge
  | .and => some .and
  | .or => some .or
  | _ => none

def BinaryOp.ofToken? : TokenKind → Option BinaryOp
  | .symbol s => ofSymbol? s
  | _ => none

/-- The greatest whole number that a literal without a minus may have. -/
def Literal.greatest : Nat := Nat.pow 2 63 - 1

/-- The literal that a number token stands for, after a minus or without one. -/
def Literal.ofNumber? (negative : Bool) : TokenKind → Option (Except Cause Literal)
  | .integer n =>
    if negative then some (.ok (.int (-n)))
    else if n ≤ greatest then some (.ok (.int n))
    else some (.error (.integerTooLarge (toString n)))
  | .float x => some (.ok (.float (if negative then x.neg else x)))
  | _ => none

namespace Operator

/-- A complete operand. Whether it is a comparison outside parentheses decides what may
follow it. -/
structure Operand where
  expr : Expr
  comparison : Bool

/-- What waits for the operand to its right. -/
inductive Waiting
  | paren
  | not (pos : Position)
  | binary (op : BinaryOp) (left : Expr)

namespace Waiting

/-- An open parenthesis lets nothing through; `!` binds tighter than every other operator. -/
def precedence : Waiting → Nat
  | paren => 0
  | not _ => 6
  | binary op _ => op.precedence

/-- The operand that results once the awaited one is there. -/
def complete : Waiting → Operand → Operand
  | paren, x => ⟨x.expr, false⟩
  | not pos, x => ⟨.not pos x.expr, false⟩
  | binary op left, x => ⟨.binary op left x.expr, op.isComparison⟩

end Waiting

/-- Completes the waiting operators that bind at least as tightly as `least`. -/
def reduce (least : Nat) : List Waiting → Operand → List Waiting × Operand
  | [], x => ([], x)
  | w :: ws, x => if least ≤ w.precedence then reduce least ws (w.complete x) else (w :: ws, x)

/-- Completes everything up to the innermost open parenthesis, and that too. -/
def close? (ws : List Waiting) (x : Operand) : Option (List Waiting × Operand) :=
  match reduce 1 ws x with
  | (.paren :: ws', x') => some (ws', Waiting.paren.complete x')
  | _ => none

/-- Completes a whole expression, which must leave no parenthesis open. -/
def finish (ws : List Waiting) (x : Operand) (rest : List Token) :
    Except ParseFault (Expr × List Token) :=
  match reduce 1 ws x with
  | ([], x') => .ok (x'.expr, rest)
  | _ => .error (.missing ")" rest)

/-- What the next token is read as. -/
inductive Expecting
  | operand
  /-- A minus at the given position has been read and its number has not. -/
  | number (minus : Position)
  | operator (x : Operand)

/-- Reads the rest of an expression. -/
def read : List Waiting → Expecting → List Token → Except ParseFault (Expr × List Token)
  | _, .operand, [] => .error (.unexpected "expression" [])
  | ws, .operand, t :: ts =>
    match t.kind with
    | .symbol .not => read (.not t.pos :: ws) .operand ts
    | .symbol .lparen => read (.paren :: ws) .operand ts
    | .symbol .minus => read ws (.number t.pos) ts
    | .keyword .true_ => read ws (.operator ⟨.literal t.pos (.bool true), false⟩) ts
    | .keyword .false_ => read ws (.operator ⟨.literal t.pos (.bool false), false⟩) ts
    | .name text => read ws (.operator ⟨.name ⟨text, t.pos⟩, false⟩) ts
    | kind =>
      match Literal.ofNumber? false kind with
      | some (.ok value) => read ws (.operator ⟨.literal t.pos value, false⟩) ts
      | some (.error cause) => .error ⟨cause, t.pos⟩
      | none => .error (.unexpected "expression" (t :: ts))
  | _, .number minus, [] => .error ⟨.danglingMinus, minus⟩
  | ws, .number minus, t :: ts =>
    match Literal.ofNumber? true t.kind with
    | some (.ok value) => read ws (.operator ⟨.literal minus value, false⟩) ts
    | some (.error cause) => .error ⟨cause, t.pos⟩
    | none => .error ⟨.danglingMinus, minus⟩
  | ws, .operator x, [] => finish ws x []
  | ws, .operator x, t :: ts =>
    if t.kind = .symbol .rparen then
      match close? ws x with
      | some (ws', x') => read ws' (.operator x') ts
      | none => finish ws x (t :: ts)
    else
      match BinaryOp.ofToken? t.kind with
      | none => finish ws x (t :: ts)
      | some op =>
        let (ws', x') := reduce op.precedence ws x
        if op.isComparison && x'.comparison then
          .error ⟨.chainedComparison t.kind.text, t.pos⟩
        else read (.binary op x'.expr :: ws') .operand ts

theorem finish_length_le {ws : List Waiting} {x : Operand} {ts rest : List Token} {e : Expr}
    (h : finish ws x ts = .ok (e, rest)) : rest.length ≤ ts.length := by
  unfold finish at h
  split at h
  · simp_all
  · simp at h

theorem read_length_le {ws : List Waiting} {expecting : Expecting} {ts rest : List Token}
    {e : Expr} (h : read ws expecting ts = .ok (e, rest)) : rest.length ≤ ts.length := by
  fun_induction read ws expecting ts <;> grind [→ finish_length_le]

end Operator

end Chipwright
