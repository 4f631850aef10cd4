import Chipwright.Program.Operator
import Chipwright.Proofs.Grammar

/-!
# What may stand next to a literal

Whether an operand or an operator comes next is told by the tokens before, from left to right. So a
minus is told from a sign without looking at what follows it: it is a sign if an operand could stand
in its place. A truth value stands only where an operand may begin, and a whole number that is too
large for a literal of its own only after a sign.
-/
namespace Chipwright.Grammar

variable {pos : Position}

/-- What the tokens before say about the next one. -/
inductive Mode
  /-- An operand may begin. -/
  | operand
  /-- A minus has been read in the place of an operand. -/
  | signed
  /-- An operand has ended, with a name. -/
  | named
  /-- An operand has ended, with something else. -/
  | closed
  /-- None of these. -/
  | apart
  deriving DecidableEq

namespace Mode

/-- An operand has ended. -/
def IsComplete (m : Mode) : Prop := m = .named ∨ m = .closed

/-- The mode after a token. There is none if a truth value, a minus, a dot or a number that is too
large stands where it cannot. -/
def next? (m : Mode) : TokenKind → Option Mode
  | .name _ => some .named
  | .device _ => some .apart
  | .integer n => if n ≤ Literal.greatest ∨ m = .signed then some .closed else none
  | .float _ => some .closed
  | .keyword .true_ | .keyword .false_ => if m = .operand then some .closed else none
  | .keyword .write => some .operand
  | .keyword _ => some .apart
  | .symbol .minus =>
    match m with
    | .operand => some .signed
    | .named | .closed => some .operand
    | _ => none
  | .symbol .dot => if m = .closed then none else some .apart
  | .symbol .rparen => some .closed
  | .symbol .lbrace | .symbol .rbrace | .symbol .semicolon => some .apart
  | .symbol _ => some .operand

/-- The mode after tokens. -/
def run? (m : Mode) : List Token → Option Mode
  | [] => some m
  | t :: ts => (m.next? t.kind).bind (·.run? ts)

@[simp] theorem run?_nil (m : Mode) : m.run? [] = some m := rfl

@[simp] theorem run?_cons (m : Mode) (t : Token) (ts : List Token) :
    m.run? (t :: ts) = (m.next? t.kind).bind (·.run? ts) := rfl

@[simp] theorem run?_append (m : Mode) (ts us : List Token) :
    m.run? (ts ++ us) = (m.run? ts).bind (·.run? us) := by
  induction ts generalizing m with
  | nil => rfl
  | cons t ts ih => simp [ih, Option.bind_assoc]

end Mode

variable {ts us : List Token}

/-! ## Expressions -/

/-- After an operand, a binary operator leads to the next operand. -/
theorem next?_operator {m : Mode} (hm : m.IsComplete) {op : BinaryOp} {s : Symbol}
    (h : s.text = op.text) : m.next? (.symbol s) = some .operand := by
  have hsymbol : s ≠ .dot ∧ s ≠ .rparen ∧ s ≠ .lbrace ∧ s ≠ .rbrace ∧ s ≠ .semicolon := by
    refine ⟨?_, ?_, ?_, ?_, ?_⟩ <;> rintro rfl <;> cases op <;> exact absurd h (by decide)
  rcases hm with rfl | rfl <;> cases s <;> simp_all [Mode.next?]

theorem run?_of_isLiteral {x : Literal} (h : IsLiteral ts pos x) :
    Mode.run? .operand ts = some .closed := by
  cases h with
  | integer bound => simp [Mode.next?, Literal.greatest, bound]
  | negative => simp [Mode.next?]
  | _ => rfl

/-- An expression begins where an operand may, and it ends with one. -/
theorem run?_of_expression {l : Level} {e : Expr} (h : Expression l ts e) :
    ∃ m, Mode.run? .operand ts = some m ∧ m.IsComplete := by
  induction h with
  | next _ ih => exact ih
  | chain _ hop _ _ ihleft ihright =>
    obtain ⟨m, hm, hcomplete⟩ := ihleft
    obtain ⟨m', hm', hcomplete'⟩ := ihright
    exact ⟨m', by simp [hm, next?_operator hcomplete hop, hm'], hcomplete'⟩
  | compare _ hop _ _ ihleft ihright =>
    obtain ⟨m, hm, hcomplete⟩ := ihleft
    obtain ⟨m', hm', hcomplete'⟩ := ihright
    exact ⟨m', by simp [hm, next?_operator hcomplete hop, hm'], hcomplete'⟩
  | not _ ih =>
    obtain ⟨m, hm, hcomplete⟩ := ih
    exact ⟨m, by simp [Mode.next?, hm], hcomplete⟩
  | literal hx => exact ⟨.closed, run?_of_isLiteral hx, Or.inr rfl⟩
  | name => exact ⟨.named, rfl, Or.inl rfl⟩
  | parenthesized _ ih =>
    obtain ⟨m, hm, -⟩ := ih
    exact ⟨.closed, by simp [Mode.next?, hm], Or.inr rfl⟩

section Lists

variable {α : Type} {item : List Token → α → Prop} {as : List α}

theorem run?_of_commaTail (hitem : ∀ ts a, item ts a → ∃ m, Mode.run? .operand ts = some m)
    (h : CommaTail item ts as) (m : Mode) : ∃ m', m.run? ts = some m' := by
  induction h generalizing m with
  | nil => exact ⟨m, rfl⟩
  | cons head _ ih =>
    obtain ⟨m₁, hm₁⟩ := hitem _ _ head
    obtain ⟨m₂, hm₂⟩ := ih m₁
    exact ⟨m₂, by simp [Mode.next?, hm₁, hm₂]⟩

theorem run?_of_commaList (hitem : ∀ ts a, item ts a → ∃ m, Mode.run? .operand ts = some m)
    (h : CommaList item ts as) : ∃ m, Mode.run? .operand ts = some m := by
  cases h with
  | nil => exact ⟨.operand, rfl⟩
  | cons head tail =>
    obtain ⟨m₁, hm₁⟩ := hitem _ _ head
    obtain ⟨m₂, hm₂⟩ := run?_of_commaTail hitem tail m₁
    exact ⟨m₂, by simp [hm₁, hm₂]⟩

end Lists

theorem run?_of_isName {x : Name} (h : IsName ts x) : ∃ m, Mode.run? .operand ts = some m := by
  cases h
  exact ⟨.named, rfl⟩

/-! ## Statements -/

/-- A statement begins anywhere. -/
theorem run?_of_simple {st : Stmt} (h : Simple ts st) (m : Mode) : m.run? ts = some .apart := by
  cases h with
  | nameSlot => rfl
  | constant hvalue => simp [Mode.next?, run?_of_isLiteral hvalue]
  | definition hvalue =>
    obtain ⟨m₁, hm₁, -⟩ := run?_of_expression hvalue
    simp [Mode.next?, hm₁]
  | assignment hvalue =>
    obtain ⟨m₁, hm₁, -⟩ := run?_of_expression hvalue
    simp [Mode.next?, hm₁]
  | call hargs =>
    obtain ⟨m₁, hm₁⟩ := run?_of_commaList
      (fun _ _ he => (run?_of_expression he).imp fun _ => And.left) hargs
    simp [Mode.next?, hm₁]
  | read hdevice => cases hdevice <;> rfl
  | write hvalue hdevice =>
    obtain ⟨m₁, hm₁, -⟩ := run?_of_expression hvalue
    cases hdevice <;> simp [Mode.next?, hm₁]
  | yield => rfl

mutual

theorem run?_of_statement : ∀ {ts : List Token} {st : Stmt}, Statement ts st →
    ∀ m : Mode, m.run? ts = some .apart
  | _, _, .simple h, m => run?_of_simple h m
  | _, _, .function hparams hbody, m => by
    obtain ⟨m₁, hm₁⟩ := run?_of_commaList (fun _ _ => run?_of_isName) hparams
    simp [Mode.next?, hm₁, run?_of_block hbody]
  | _, _, .loop hbody, m => by
    simp [Mode.next?, run?_of_block hbody]
  | _, _, .ifThen hcondition hthen, m => by
    obtain ⟨m₁, hm₁, -⟩ := run?_of_expression hcondition
    simp [Mode.next?, hm₁, run?_of_block hthen]
  | _, _, .ifElse hcondition hthen helse, m => by
    obtain ⟨m₁, hm₁, -⟩ := run?_of_expression hcondition
    simp [Mode.next?, hm₁, run?_of_block hthen, run?_of_block helse]
  | _, _, .block hbody, m => run?_of_block hbody m

theorem run?_of_block : ∀ {ts : List Token} {pos : Position} {body : List Stmt},
    Block ts pos body → ∀ m : Mode, m.run? ts = some .apart
  | _, _, _, .mk hbody, m => by
    obtain ⟨m₁, hm₁⟩ := run?_of_statements hbody .apart
    simp [Mode.next?, hm₁]

theorem run?_of_statements : ∀ {ts : List Token} {body : List Stmt}, Statements ts body →
    ∀ m : Mode, ∃ m', m.run? ts = some m'
  | _, _, .nil, m => ⟨m, rfl⟩
  | _, _, .cons head tail, m => by
    obtain ⟨m', hm'⟩ := run?_of_statements tail .apart
    exact ⟨m', by simp [run?_of_statement head m, hm']⟩

end

/-- In a program nothing is out of place. -/
theorem run?_of_derives {p : Program} (h : Derives ts p) : ∃ m, Mode.run? .apart ts = some m :=
  run?_of_statements h .apart

/-- A truth value stands where an operand may begin, and no dot follows it. -/
theorem operand_before_true {before after : List Token} {p : Program}
    (h : Derives (before ++ ⟨.keyword .true_, pos⟩ :: after) p) :
    Mode.run? .apart before = some .operand ∧ ∀ t ∈ after.head?, t.kind ≠ .symbol .dot := by
  obtain ⟨m, hm⟩ := run?_of_derives h
  rw [Mode.run?_append, Option.bind_eq_some_iff] at hm
  obtain ⟨m₁, hbefore, hm⟩ := hm
  rw [Mode.run?_cons, Option.bind_eq_some_iff] at hm
  obtain ⟨m₂, htrue, hm⟩ := hm
  simp only [Mode.next?, Option.ite_none_right_eq_some, Option.some.injEq] at htrue
  obtain ⟨rfl, rfl⟩ := htrue
  refine ⟨hbefore, fun t ht hdot => ?_⟩
  obtain ⟨more, rfl⟩ := List.head?_eq_some_iff.1 ht
  simp [hdot, Mode.next?] at hm

/-- A whole number that is too large for a literal of its own stands after a sign. -/
theorem signed_before_integer {before after : List Token} {n : Nat} {p : Program}
    (h : Derives (before ++ ⟨.integer n, pos⟩ :: after) p) (hn : Literal.greatest < n) :
    Mode.run? .apart before = some .signed := by
  obtain ⟨m, hm⟩ := run?_of_derives h
  rw [Mode.run?_append, Option.bind_eq_some_iff] at hm
  obtain ⟨m₁, hbefore, hm⟩ := hm
  rw [Mode.run?_cons, Option.bind_eq_some_iff] at hm
  obtain ⟨m₂, hinteger, -⟩ := hm
  simp only [Mode.next?, Option.ite_none_right_eq_some, Nat.not_le.2 hn, false_or] at hinteger
  rw [hbefore, hinteger.1]

end Chipwright.Grammar
