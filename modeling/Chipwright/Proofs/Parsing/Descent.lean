import Chipwright.Program.Parser
import Chipwright.Proofs.Parsing.Expression

/-!
# Expressions by recursive descent

A second reader of expressions, with one function for each level of the grammar, which calls
the function of the next level for its operands. It keeps nothing waiting: what has been read
is on the way back up through the calls. The reader with waiting operators gives the same for
all tokens, be it a tree and the tokens that are left or a fault.

The proof goes level by level. Where the descent takes a phrase of a level, the other reader
comes to the same token with some operators waiting, and these are completed by whatever may
follow a phrase of that level (`After`).

## Main definitions

* `Descent.disjunction`: reads an expression, level by level

## Main statements

* `Reader.expression_eq_descent`: both readers give the same for all tokens
-/
namespace Chipwright

/-- Reads on after something has been read from the end `us` of the tokens `ts`. -/
def Reading.andThen {α β : Type} {us ts : List Token} (h : us.length ≤ ts.length)
    (x : Except ParseFault (Reading α us))
    (next : (a : α) → (rest : List Token) → rest.length ≤ us.length →
      Except ParseFault (Reading β rest)) : Except ParseFault (Reading β ts) :=
  match x with
  | .error fault => .error fault
  | .ok ⟨(a, rest), h₁⟩ =>
    match next a rest h₁ with
    | .error fault => .error fault
    | .ok ⟨r, h₂⟩ => .ok ⟨r, Nat.le_trans h₂ (Nat.le_trans h₁ h)⟩

namespace Descent

open Reading (andThen)

/-- Reads an operand from the front of at most `n` tokens. -/
abbrev OperandReader (n : Nat) :=
  (ts : List Token) → ts.length ≤ n → Except ParseFault (Reading Expr ts)

/-- The operator that a token spells, if it is one of some operators. -/
def operator? (ops : List BinaryOp) (kind : TokenKind) : Option BinaryOp :=
  (BinaryOp.ofToken? kind).filter (ops.contains ·)

/-- `(operator operand)*` after a first operand, grouped to the left -/
def chainFrom {n : Nat} (ops : List BinaryOp) (operand : OperandReader n) (left : Expr)
    (ts : List Token) (h : ts.length ≤ n) : Except ParseFault (Reading Expr ts) :=
  match ts with
  | [] => Reader.pure left []
  | t :: ts =>
    match operator? ops t.kind with
    | none => Reader.pure left (t :: ts)
    | some op =>
      andThen (Nat.le_succ _) (operand ts (Nat.le_of_succ_le h)) fun right rest h' =>
        chainFrom ops operand (.binary op left right) rest
          (Nat.le_trans h' (Nat.le_of_succ_le h))
termination_by ts.length
decreasing_by simp only [List.length_cons]; omega

/-- `operand (operator operand)*`, grouped to the left -/
def chain {n : Nat} (ops : List BinaryOp) (operand : OperandReader n) : OperandReader n :=
  fun ts h =>
    andThen (Nat.le_refl _) (operand ts h) fun left rest h' =>
      chainFrom ops operand left rest (Nat.le_trans h' h)

def comparisons : List BinaryOp := [.eq, .ne, .lt, .gt, .le, .ge]

/-- A comparison that no other one may follow. -/
def endComparison (e : Expr) (ts : List Token) : Except ParseFault (Reading Expr ts) :=
  match ts with
  | [] => Reader.pure e []
  | t :: ts =>
    if (operator? comparisons t.kind).isSome then
      .error ⟨.chainedComparison t.kind.text, t.pos⟩
    else Reader.pure e (t :: ts)

/-- `(operator operand)?` after a first operand, the operator being a comparison -/
def compareFrom {n : Nat} (operand : OperandReader n) (left : Expr) (ts : List Token)
    (h : ts.length ≤ n) : Except ParseFault (Reading Expr ts) :=
  match ts with
  | [] => Reader.pure left []
  | t :: ts =>
    match operator? comparisons t.kind with
    | none => Reader.pure left (t :: ts)
    | some op =>
      andThen (Nat.le_succ _) (operand ts (Nat.le_of_succ_le h)) fun right rest _ =>
        endComparison (.binary op left right) rest

/-- `operand (operator operand)?`, the operator being a comparison -/
def compare {n : Nat} (operand : OperandReader n) : OperandReader n :=
  fun ts h =>
    andThen (Nat.le_refl _) (operand ts h) fun left rest h' =>
      compareFrom operand left rest (Nat.le_trans h' h)

/-- Whether a token can be the first one of a literal. -/
def startsLiteral : TokenKind → Bool
  | .keyword .true_ => true
  | .keyword .false_ => true
  | .symbol .minus => true
  | kind => kind.isNumber

mutual

/-- `disjunction ::= conjunction ('||' conjunction)*` -/
def disjunction (ts : List Token) : Except ParseFault (Reading Expr ts) :=
  chain [.or] (fun us (_ : us.length ≤ ts.length) => conjunction us) ts (Nat.le_refl _)
termination_by (ts.length, 6)
decreasing_by rw [Prod.lex_def]; omega

/-- `conjunction ::= comparison ('&&' comparison)*` -/
def conjunction (ts : List Token) : Except ParseFault (Reading Expr ts) :=
  chain [.and] (fun us (_ : us.length ≤ ts.length) => comparison us) ts (Nat.le_refl _)
termination_by (ts.length, 5)
decreasing_by rw [Prod.lex_def]; omega

/-- `comparison ::= sum (('==' | '!=' | '<' | '>' | '<=' | '>=') sum)?` -/
def comparison (ts : List Token) : Except ParseFault (Reading Expr ts) :=
  compare (fun us (_ : us.length ≤ ts.length) => sum us) ts (Nat.le_refl _)
termination_by (ts.length, 4)
decreasing_by rw [Prod.lex_def]; omega

/-- `sum ::= factor (('+' | '-') factor)*` -/
def sum (ts : List Token) : Except ParseFault (Reading Expr ts) :=
  chain [.add, .sub] (fun us (_ : us.length ≤ ts.length) => factor us) ts (Nat.le_refl _)
termination_by (ts.length, 3)
decreasing_by rw [Prod.lex_def]; omega

/-- `factor ::= unary (('*' | '/') unary)*` -/
def factor (ts : List Token) : Except ParseFault (Reading Expr ts) :=
  chain [.mul, .div] (fun us (_ : us.length ≤ ts.length) => unary us) ts (Nat.le_refl _)
termination_by (ts.length, 2)
decreasing_by rw [Prod.lex_def]; omega

/-- `unary ::= '!' unary | term` -/
def unary (ts : List Token) : Except ParseFault (Reading Expr ts) :=
  match ts with
  | [] => term []
  | t :: ts =>
    if t.kind = .symbol .not then
      andThen (Nat.le_succ _) (unary ts) fun e rest _ => Reader.pure (.not t.pos e) rest
    else term (t :: ts)
termination_by (ts.length, 1)

/-- `term ::= literal | IDENT | '(' disjunction ')'` -/
def term (ts : List Token) : Except ParseFault (Reading Expr ts) :=
  match ts with
  | [] => .error (.unexpected "expression" [])
  | t :: ts =>
    match t.kind with
    | .symbol .lparen =>
      andThen (Nat.le_succ _) (disjunction ts) fun e rest _ =>
        andThen (Nat.le_refl _) (Reader.expect (.symbol .rparen) rest) fun _ rest' _ =>
          Reader.pure e rest'
    | .name text => .ok ⟨(.name ⟨text, t.pos⟩, ts), Nat.le_succ _⟩
    | kind =>
      if startsLiteral kind then
        andThen (Nat.le_refl _) (Reader.literal (t :: ts)) fun x rest _ =>
          Reader.pure (.literal x.1 x.2) rest
      else .error (.unexpected "expression" (t :: ts))
termination_by (ts.length, 0)

end

/-! ### What may follow a phrase -/

open Operator

theorem operator?_eq_some_iff {ops : List BinaryOp} {kind : TokenKind} {op : BinaryOp} :
    operator? ops kind = some op ↔ BinaryOp.ofToken? kind = some op ∧ op ∈ ops := by
  simp [operator?, Option.filter_eq_some_iff]

/-- The token at the front is no operator that binds at least as tightly as `n`. -/
def Closed (n : Nat) (rest : List Token) : Prop :=
  ∀ t ∈ rest.head?, ∀ op, BinaryOp.ofToken? t.kind = some op → op.precedence < n

namespace Closed

variable {n : Nat} {rest : List Token}

theorem nil : Closed n [] := by simp [Closed]

theorem of_six_le (h : 6 ≤ n) : Closed n rest := by
  intro t _ op _
  have hfive := op.precedence_le
  omega

theorem stops (h : Closed 1 rest) : Stops rest := by
  intro t ht
  cases hop : BinaryOp.ofToken? t.kind with
  | none => rfl
  | some op =>
    have hlt := h t ht op hop
    have hone := op.one_le_precedence
    omega

/-- A phrase that no operator of its own level follows. -/
theorem of_operator? {ops : List BinaryOp} {t : Token} (h : Closed (n + 1) (t :: rest))
    (hops : ∀ op, op ∈ ops ↔ op.precedence = n) (hnone : operator? ops t.kind = none) :
    Closed n (t :: rest) := by
  intro t' ht' op hop
  obtain rfl : t = t' := by simpa using ht'
  have hle := h t (by simp) op hop
  have hne : op.precedence ≠ n := by
    intro heq
    rw [operator?_eq_some_iff.2 ⟨hop, (hops op).2 heq⟩] at hnone
    cases hnone
  omega

end Closed

/-! ### Both readers find the same -/

/-- What the descent finds as a phrase of tightness `n` is what the other reader finds, which
gives `run`: the same fault, or the same tree before the same token. -/
def Yields (ws : List Waiting) (n : Nat) (run : Except ParseFault (Expr × List Token))
    {ts : List Token} : Except ParseFault (Reading Expr ts) → Prop
  | .error fault => run = .error fault
  | .ok ⟨(e, rest), _⟩ =>
    Closed n rest ∧ ∃ ws' x, After ws n e ws' x ∧ run = read ws' (.operator x) rest

/-- Both readers find the same where an operand of tightness `n` is awaited. -/
def Agrees (n : Nat) (ts : List Token) (result : Except ParseFault (Reading Expr ts)) : Prop :=
  ∀ ws, demand ws ≤ n → Yields ws n (read ws .operand ts) result

variable {ws ws₀ ws' : List Waiting} {n m : Nat} {ts us rest : List Token} {e left : Expr}
  {x' : Operator.Operand} {run : Except ParseFault (Expr × List Token)}

theorem Yields.pure (hclosed : Closed n ts) (hafter : After ws n e ws' x') :
    Yields ws n (read ws' (.operator x') ts) (Reader.pure e ts) :=
  ⟨hclosed, ws', x', hafter, rfl⟩

theorem Yields.andThen {h : us.length ≤ ts.length} {x : Except ParseFault (Reading Expr us)}
    {next : (e : Expr) → (rest : List Token) → rest.length ≤ us.length →
      Except ParseFault (Reading Expr rest)} (hx : Yields ws₀ m run x)
    (hnext : ∀ e rest h' ws' x', Closed m rest → After ws₀ m e ws' x' →
      Yields ws n (read ws' (.operator x') rest) (next e rest h')) :
    Yields ws n run (Reading.andThen h x next) := by
  cases x with
  | error fault => exact hx
  | ok r =>
    obtain ⟨⟨e, rest⟩, h'⟩ := r
    obtain ⟨hclosed, ws', x', hafter, rfl⟩ := hx
    have hyields := hnext e rest h' ws' x' hclosed hafter
    simp only [Reading.andThen]
    cases hresult : next e rest h' with
    | error fault =>
      rw [hresult] at hyields
      exact hyields
    | ok r =>
      rw [hresult] at hyields
      exact hyields

/-- No operator holds together as tightly as `!` and what is inside it. -/
theorem Yields.loosen {r : Except ParseFault (Reading Expr ts)} (h : Yields ws m run r)
    (hle : n ≤ m) (hn : 6 ≤ n) : Yields ws n run r := by
  cases r with
  | error fault => exact h
  | ok r =>
    obtain ⟨⟨e, rest⟩, h'⟩ := r
    obtain ⟨-, ws', x', hafter, hrun⟩ := h
    exact ⟨.of_six_le hn, ws', x', hafter.mono hle, hrun⟩

section Levels

variable {op : BinaryOp}

variable {k : Nat} {operand : OperandReader k} {ops : List BinaryOp}

/-- Operators of a level other than that of comparisons are taken one by one. -/
theorem yields_chainFrom (hops : ∀ op, op ∈ ops ↔ op.precedence = n)
    (hcomparison : ∀ op ∈ ops, op.isComparison = false)
    (hoperand : ∀ us h, Agrees (n + 1) us (operand us h)) (hws : demand ws ≤ n)
    {h : ts.length ≤ k} (hclosed : Closed (n + 1) ts) (hafter : After ws n left ws' x') :
    Yields ws n (read ws' (.operator x') ts) (chainFrom ops operand left ts h) := by
  fun_induction chainFrom ops operand left ts h generalizing ws' x' with
  | case1 left => exact .pure .nil hafter
  | case2 left t ts _ hnone => exact .pure (hclosed.of_operator? hops hnone) hafter
  | case3 left t ts _ op hsome _ ih =>
    obtain ⟨hop, hmem⟩ := operator?_eq_some_iff.1 hsome
    obtain rfl := (hops op).1 hmem
    obtain ⟨c, -, hreduce⟩ := hafter.reduce_eq hws (Nat.le_refl _)
    rw [read_operator hop (by simp [hcomparison op hmem]) hreduce]
    refine (hoperand ts _ (.binary op left :: ws) (Nat.le_refl _)).andThen ?_
    intro right rest h' ws₁ x₁ hclosed₁ hafter₁
    exact ih right rest h' hclosed₁ hafter₁.binary

theorem agrees_chain (hops : ∀ op, op ∈ ops ↔ op.precedence = n)
    (hcomparison : ∀ op ∈ ops, op.isComparison = false)
    (hoperand : ∀ us h, Agrees (n + 1) us (operand us h)) (ts : List Token)
    (h : ts.length ≤ k) : Agrees n ts (chain ops operand ts h) := by
  intro ws hws
  refine (hoperand ts h ws (by omega)).andThen fun left rest h' ws' x' hclosed hafter => ?_
  exact yields_chainFrom hops hcomparison hoperand hws hclosed (hafter.mono (Nat.le_succ n))

theorem mem_comparisons : op ∈ comparisons ↔ op.precedence = 3 := by
  cases op <;> decide

theorem isComparison_of_mem (h : op ∈ comparisons) : op.isComparison = true := by
  revert h
  cases op <;> decide

/-- A comparison after a comparison is refused by both. -/
theorem yields_endComparison (hws : demand ws ≤ 3) {right : Expr} (hop : op ∈ comparisons)
    (hclosed : Closed 4 ts) (hafter : After (.binary op left :: ws) 4 right ws' x') :
    Yields ws 3 (read ws' (.operator x') ts) (endComparison (.binary op left right) ts) := by
  have hthree : op.precedence = 3 := mem_comparisons.1 hop
  have hafter₃ : After ws 3 (.binary op left right) ws' x' := by
    rw [← hthree]
    exact After.binary (by rw [hthree]; exact hafter)
  cases ts with
  | nil => exact .pure .nil hafter₃
  | cons t ts =>
    rw [endComparison]
    cases hsecond : operator? comparisons t.kind with
    | none => exact .pure (hclosed.of_operator? (fun _ => mem_comparisons) hsecond) hafter₃
    | some op₂ =>
      obtain ⟨hop₂, hmem₂⟩ := operator?_eq_some_iff.1 hsecond
      have hthree₂ : op₂.precedence = 3 := mem_comparisons.1 hmem₂
      obtain ⟨c, -, hreduce⟩ := hafter
      -- The first comparison is completed before the second is looked at, and leaves its mark.
      have hreduced : reduce op₂.precedence ws' x' = (ws, ⟨.binary op left right, true⟩) := by
        rw [hthree₂, hreduce 3 (by decide) (by decide),
          reduce_cons_of_le (Nat.le_of_eq hthree.symm), Waiting.complete,
          isComparison_of_mem hop, reduce_of_demand_le hws (by decide)]
      show read ws' (.operator x') (t :: ts) = _
      simp [Operator.read, ne_rparen_of_ofToken? hop₂, hop₂, hreduced, isComparison_of_mem hmem₂]

theorem agrees_compare (hoperand : ∀ us h, Agrees 4 us (operand us h)) (ts : List Token)
    (h : ts.length ≤ k) : Agrees 3 ts (compare operand ts h) := by
  intro ws hws
  refine (hoperand ts h ws (by omega)).andThen fun left rest h' ws' x' hclosed hafter => ?_
  cases rest with
  | nil => exact .pure .nil (hafter.mono (by decide))
  | cons t rest =>
    rw [compareFrom]
    cases hsome : operator? comparisons t.kind with
    | none =>
      exact .pure (hclosed.of_operator? (fun _ => mem_comparisons) hsome) (hafter.mono (by decide))
    | some op =>
      obtain ⟨hop, hmem⟩ := operator?_eq_some_iff.1 hsome
      have hthree : op.precedence = 3 := mem_comparisons.1 hmem
      obtain ⟨c, hc, hreduce⟩ := hafter.reduce_eq (show demand ws ≤ op.precedence by omega)
        (by omega)
      rw [read_operator hop (by simp [hc (by decide)]) hreduce]
      have hdemand : demand (.binary op left :: ws) ≤ 4 := by simp [demand, hthree]
      refine (hoperand rest _ _ hdemand).andThen fun right rest' h₁ ws₁ x₁ hclosed₁ hafter₁ => ?_
      exact yields_endComparison hws hmem hclosed₁ hafter₁

end Levels

/-! ### Operands -/

theorem agrees_unary {k : Nat}
    (hterm : ∀ us, us.length ≤ k → (∀ t ∈ us.head?, t.kind ≠ .symbol .not) → Agrees 7 us (term us))
    (ts : List Token) (h : ts.length ≤ k) : Agrees 6 ts (unary ts) := by
  induction ts with
  | nil =>
    intro ws hws
    rw [unary]
    exact (hterm [] h (by simp) ws (by omega)).loosen (by decide) (by decide)
  | cons t ts ih =>
    intro ws hws
    rw [unary]
    split
    case isTrue hkind =>
      have hread : read ws .operand (t :: ts) = read (.not t.pos :: ws) .operand ts := by
        simp [Operator.read, hkind]
      rw [hread]
      refine (ih (Nat.le_of_succ_le h) (.not t.pos :: ws) (Nat.le_refl 6)).andThen ?_
      intro e rest h' ws' x' hclosed hafter
      exact .pure hclosed hafter.not
    case isFalse hkind =>
      exact (hterm (t :: ts) h (by simpa using hkind) ws (by omega)).loosen (by decide) (by decide)

/-- A closing parenthesis ends an expression in parentheses, and nothing else may. -/
theorem yields_rparen (hclosed : Closed 1 rest) (hafter : After (.paren :: ws) 1 e ws' x') :
    Yields ws 7 (read ws' (.operator x') rest)
      (Reading.andThen (Nat.le_refl _) (Reader.expect (.symbol .rparen) rest) fun _ rest' _ =>
        Reader.pure e rest') := by
  have hopen : finish ws' x' rest = .error (.missing ")" rest) := by
    obtain ⟨c, -, hreduce⟩ := hafter
    unfold finish
    rw [hreduce 1 (Nat.le_refl _) (Nat.le_refl _)]
    rfl
  cases rest with
  | nil =>
    show read ws' (.operator x') [] = _
    rw [Operator.read, hopen]
    rfl
  | cons t rest =>
    by_cases hkind : t.kind = .symbol .rparen
    · have hread : read ws' (.operator x') (t :: rest) = read ws (.operator ⟨e, false⟩) rest := by
        simp [Operator.read, hkind, hafter.close]
      rw [hread, Reader.expect, if_pos hkind]
      exact .pure (.of_six_le (by decide)) .of_term
    · have hnone : BinaryOp.ofToken? t.kind = none := hclosed.stops t (by simp)
      rw [Reader.expect, if_neg hkind]
      show read ws' (.operator x') (t :: rest) = _
      simp [Operator.read, hkind, hnone, hopen]
      rfl

/-- A literal is an operand, and what is wrong with one is wrong with the expression. -/
theorem read_literal (ws : List Waiting) (ts : List Token) {t : Token}
    (h : startsLiteral t.kind = true) :
    match Reader.literal (t :: ts) with
    | .error fault => read ws .operand (t :: ts) = .error fault
    | .ok ⟨((pos, value), rest), _⟩ =>
      read ws .operand (t :: ts) = read ws (.operator ⟨.literal pos value, false⟩) rest := by
  obtain ⟨kind, pos⟩ := t
  cases kind with
  | name | device => cases h
  | integer n =>
    by_cases hn : n ≤ Literal.greatest
    · simp [Reader.literal, Operator.read, Literal.ofNumber?, hn]
    · simp [Reader.literal, Operator.read, Literal.ofNumber?, hn]
  | float x => simp [Reader.literal, Operator.read, Literal.ofNumber?]
  | keyword k =>
    cases k with
    | true_ | false_ => simp [Reader.literal, Operator.read]
    | _ => cases h
  | symbol s =>
    cases s with
    | minus =>
      cases ts with
      | nil => simp [Reader.literal, Operator.read]
      | cons u ts =>
        cases hnumber : Literal.ofNumber? true u.kind with
        | none => simp [Reader.literal, Operator.read, hnumber]
        | some r => cases r <;> simp [Reader.literal, Operator.read, hnumber]
    | _ => cases h

/-- The other tokens that may not stand where a term is expected. -/
theorem read_unexpected {t : Token} (hnot : t.kind ≠ .symbol .not)
    (hparen : t.kind ≠ .symbol .lparen) (hname : ∀ text, t.kind ≠ .name text)
    (hliteral : startsLiteral t.kind = false) :
    read ws .operand (t :: ts) = .error (.unexpected "expression" (t :: ts)) := by
  obtain ⟨kind, pos⟩ := t
  cases kind with
  | name text => exact absurd rfl (hname text)
  | integer | float => cases hliteral
  | device => rfl
  | keyword k =>
    cases k with
    | true_ | false_ => cases hliteral
    | _ => rfl
  | symbol s =>
    cases s with
    | not => exact absurd rfl hnot
    | lparen => exact absurd rfl hparen
    | minus => cases hliteral
    | _ => rfl

theorem agrees_term (hnot : ∀ t ∈ ts.head?, t.kind ≠ .symbol .not)
    (hinner : ∀ us, us.length < ts.length → Agrees 1 us (disjunction us)) :
    Agrees 7 ts (term ts) := by
  intro ws _
  cases ts with
  | nil =>
    rw [term]
    rfl
  | cons t ts =>
    rw [term]
    split
    case h_1 hkind =>
      have hread : read ws .operand (t :: ts) = read (.paren :: ws) .operand ts := by
        simp [Operator.read, hkind]
      rw [hread]
      refine (hinner ts (Nat.lt_succ_self _) (.paren :: ws) (Nat.le_refl 1)).andThen ?_
      intro e rest h' ws' x' hclosed hafter
      exact yields_rparen hclosed hafter
    case h_2 text hkind =>
      refine ⟨.of_six_le (by decide), ws, ⟨.name ⟨text, t.pos⟩, false⟩, .of_term, ?_⟩
      simp [Operator.read, hkind]
    case h_3 hparen hname =>
      split
      case isTrue hliteral =>
        have hread := read_literal ws ts hliteral
        cases hresult : Reader.literal (t :: ts) with
        | error fault =>
          rw [hresult] at hread
          exact hread
        | ok r =>
          rw [hresult] at hread
          exact ⟨.of_six_le (by decide), ws, _, .of_term, hread⟩
      case isFalse hliteral =>
        exact read_unexpected (hnot t (by simp)) hparen hname (by simpa using hliteral)

theorem agrees_disjunction (ts : List Token) : Agrees 1 ts (disjunction ts) := by
  -- Only parentheses lead back to this level, and there are fewer tokens inside them.
  have hunary : ∀ us, us.length ≤ ts.length → Agrees 6 us (unary us) :=
    agrees_unary fun us hus hnot => agrees_term hnot fun vs hvs => agrees_disjunction vs
  have hfactor : ∀ us, us.length ≤ ts.length → Agrees 5 us (factor us) := by
    intro us hus
    rw [factor]
    exact agrees_chain (by intro op; cases op <;> decide) (by decide)
      (fun vs hvs => hunary vs (by omega)) us _
  have hsum : ∀ us, us.length ≤ ts.length → Agrees 4 us (sum us) := by
    intro us hus
    rw [sum]
    exact agrees_chain (by intro op; cases op <;> decide) (by decide)
      (fun vs hvs => hfactor vs (by omega)) us _
  have hcomparison : ∀ us, us.length ≤ ts.length → Agrees 3 us (comparison us) := by
    intro us hus
    rw [comparison]
    exact agrees_compare (fun vs hvs => hsum vs (by omega)) us _
  have hconjunction : ∀ us, us.length ≤ ts.length → Agrees 2 us (conjunction us) := by
    intro us hus
    rw [conjunction]
    exact agrees_chain (by intro op; cases op <;> decide) (by decide)
      (fun vs hvs => hcomparison vs (by omega)) us _
  rw [disjunction]
  exact agrees_chain (by intro op; cases op <;> decide) (by decide)
    (fun vs hvs => hconjunction vs hvs) ts _
termination_by ts.length
decreasing_by omega

end Descent

/-- The reader with waiting operators and the descent give the same for all tokens: the same
tree and the same tokens left, or the same fault at the same place. -/
theorem Reader.expression_eq_descent (ts : List Token) :
    Reader.expression ts = Descent.disjunction ts := by
  have hagrees := Descent.agrees_disjunction ts [] (Nat.le_refl 1)
  unfold Reader.expression
  cases hdescent : Descent.disjunction ts with
  | error fault =>
    rw [hdescent] at hagrees
    have hread : Operator.read [] .operand ts = .error fault := hagrees
    split
    case h_1 hfault => rw [Except.error.inj (hfault.symm.trans hread)]
    case h_2 hok => cases hok.symm.trans hread
  | ok r =>
    obtain ⟨⟨e, rest⟩, hle⟩ := r
    rw [hdescent] at hagrees
    obtain ⟨hclosed, ws', x, ⟨c, -, hreduce⟩, hrun⟩ := hagrees
    have hread : Operator.read [] .operand ts = .ok (e, rest) :=
      hrun.trans (Operator.read_of_stops (hreduce 1 (Nat.le_refl _) (Nat.le_refl _)) hclosed.stops)
    split
    case h_1 hfault => cases hfault.symm.trans hread
    case h_2 hok =>
      cases hok.symm.trans hread
      rfl

end Chipwright
