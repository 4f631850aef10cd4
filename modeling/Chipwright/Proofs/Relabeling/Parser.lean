import Chipwright.Program.Parser
import Chipwright.Proofs.Relabeling.Results

/-!
# Reading tokens at other places

A reader looks at the kinds of tokens and passes their positions on. So from tokens at other places
it reads the same program at other places, or finds the same fault.
-/
namespace Chipwright

variable (φ : Position ↪ Position)

def Token.move (t : Token) : Token := ⟨t.kind, φ t.pos⟩

theorem Token.textAtFront_move (ts : List Token) :
    textAtFront (ts.map (Token.move φ)) = textAtFront ts := by
  cases ts <;> rfl

namespace ParseFault

def move (f : ParseFault) : ParseFault := ⟨f.cause, f.pos.map φ⟩

theorem unexpected_move (expected : String) (ts : List Token) :
    unexpected expected (ts.map (Token.move φ)) = (unexpected expected ts).move φ := by
  rw [unexpected, Token.textAtFront_move]
  cases ts <;> rfl

theorem missing_move (expected : String) (ts : List Token) :
    missing expected (ts.map (Token.move φ)) = (missing expected ts).move φ := by
  rw [missing, Token.textAtFront_move]
  cases ts <;> rfl

end ParseFault

/-! ## Expressions -/

namespace Operator

/-- An expression and the tokens after it, at other places. -/
def movedExpr (r : Expr × List Token) : Expr × List Token :=
  (r.1.relabel (.moving φ), r.2.map (Token.move φ))

def Operand.move (x : Operand) : Operand := ⟨x.expr.relabel (.moving φ), x.comparison⟩

namespace Waiting

def move : Waiting → Waiting
  | paren => .paren
  | not pos => .not (φ pos)
  | binary op left => .binary op (left.relabel (.moving φ))

@[simp] theorem precedence_move (w : Waiting) : (w.move φ).precedence = w.precedence := by
  cases w <;> rfl

theorem complete_move (w : Waiting) (x : Operand) :
    (w.move φ).complete (x.move φ) = (w.complete x).move φ := by
  cases w <;> rfl

end Waiting

def Expecting.move : Expecting → Expecting
  | operand => .operand
  | number minus => .number (φ minus)
  | operator x => .operator (x.move φ)

theorem reduce_move (least : Nat) (ws : List Waiting) (x : Operand) :
    reduce least (ws.map (Waiting.move φ)) (x.move φ) =
      ((reduce least ws x).1.map (Waiting.move φ), (reduce least ws x).2.move φ) := by
  induction ws generalizing x with
  | nil => rfl
  | cons w ws ih =>
    rw [List.map_cons, reduce, reduce, Waiting.precedence_move, Waiting.complete_move]
    split
    · exact ih (w.complete x)
    · rfl

theorem close?_move (ws : List Waiting) (x : Operand) :
    close? (ws.map (Waiting.move φ)) (x.move φ) =
      (close? ws x).map fun r => (r.1.map (Waiting.move φ), r.2.move φ) := by
  unfold close?
  rw [reduce_move]
  obtain ⟨ws', x'⟩ := reduce 1 ws x
  cases ws' with
  | nil => rfl
  | cons w ws' => cases w <;> rfl

/-- The reading of an expression at other places. -/
abbrev ReadsAlike (x y : Except ParseFault (Expr × List Token)) : Prop :=
  Matches (fun e e' => e' = e.move φ) (fun r r' => r' = movedExpr φ r) x y

theorem matches_finish (ws : List Waiting) (x : Operand) (rest : List Token) :
    ReadsAlike φ (finish ws x rest)
      (finish (ws.map (Waiting.move φ)) (x.move φ) (rest.map (Token.move φ))) := by
  unfold finish
  rw [reduce_move]
  obtain ⟨ws', x'⟩ := reduce 1 ws x
  cases ws' with
  | nil => exact Matches.ok rfl
  | cons w ws' => exact Matches.error (ParseFault.missing_move φ ")" rest)

theorem matches_read (ws : List Waiting) (expecting : Expecting) (ts : List Token) :
    ReadsAlike φ (read ws expecting ts)
      (read (ws.map (Waiting.move φ)) (expecting.move φ) (ts.map (Token.move φ))) := by
  induction ts generalizing ws expecting with
  | nil =>
    cases expecting with
    | operand => exact Matches.error rfl
    | number minus => exact Matches.error rfl
    | operator x => exact matches_finish φ ws x []
  | cons t ts ih =>
    obtain ⟨kind, pos⟩ := t
    cases expecting with
    | operand =>
      have hother : ReadsAlike φ (.error (.unexpected "expression" (⟨kind, pos⟩ :: ts)))
          (.error (.unexpected "expression" ((⟨kind, pos⟩ :: ts).map (Token.move φ)))) :=
        Matches.error (ParseFault.unexpected_move φ "expression" (⟨kind, pos⟩ :: ts))
      cases kind with
      | name text => exact ih ws (.operator ⟨.name ⟨text, pos⟩, false⟩)
      | float value => exact ih ws (.operator ⟨.literal pos _, false⟩)
      | integer n =>
        simp only [List.map_cons, Expecting.move, Token.move, read]
        cases Literal.ofNumber? false (.integer n) with
        | none => exact hother
        | some value =>
          cases value with
          | ok value => exact ih ws (.operator ⟨.literal pos value, false⟩)
          | error cause => exact Matches.error rfl
      | device slot => exact hother
      | keyword k =>
        cases k with
        | true_ => exact ih ws (.operator ⟨.literal pos (.bool true), false⟩)
        | false_ => exact ih ws (.operator ⟨.literal pos (.bool false), false⟩)
        | _ => exact hother
      | symbol s =>
        cases s with
        | not => exact ih (.not pos :: ws) .operand
        | lparen => exact ih (.paren :: ws) .operand
        | minus => exact ih ws (.number pos)
        | _ => exact hother
    | number minus =>
      simp only [List.map_cons, Expecting.move, read, Token.move]
      split
      · rename_i value hvalue
        exact ih ws (.operator ⟨.literal minus value, false⟩)
      · exact Matches.error rfl
      · exact Matches.error rfl
    | operator x =>
      have hfinish := matches_finish φ ws x (⟨kind, pos⟩ :: ts)
      simp only [List.map_cons, Expecting.move, read, Token.move, close?_move, reduce_move]
      split
      · cases close? ws x with
        | none => exact hfinish
        | some r => exact ih r.1 (.operator r.2)
      · cases BinaryOp.ofToken? kind with
        | none => exact hfinish
        | some op =>
          change ReadsAlike φ (if op.isComparison && (reduce op.precedence ws x).2.comparison then _
            else _) (if op.isComparison && (reduce op.precedence ws x).2.comparison then _ else _)
          split
          · exact Matches.error rfl
          · exact ih (.binary op (reduce op.precedence ws x).2.expr ::
              (reduce op.precedence ws x).1) .operand

end Operator

/-! ## Readers -/

namespace Reader

variable {α β γ δ : Type}

/-- What a reader gives, without the bound on what it leaves. -/
def outcome (p : Reader α) (ts : List Token) : Except ParseFault (α × List Token) :=
  (p ts).map (·.1)

theorem length_le_of_outcome {p : Reader α} {ts : List Token} {r : α × List Token}
    (h : p.outcome ts = .ok r) : r.2.length ≤ ts.length := by
  unfold outcome at h
  cases hx : p ts with
  | error fault =>
    rw [hx] at h
    cases h
  | ok r' =>
    rw [hx] at h
    cases h
    exact r'.2

theorem outcome_bind (p : Reader α) (k : α → Reader β) (ts : List Token) :
    (p >>= k).outcome ts = p.outcome ts >>= fun r => (k r.1).outcome r.2 := by
  change (Reader.bind p k ts).map _ = _
  unfold Reader.bind outcome
  cases p ts with
  | error fault => rfl
  | ok r =>
    obtain ⟨⟨a, rest⟩, hrest⟩ := r
    change _ = (k a rest).map _
    dsimp only
    cases k a rest <;> rfl

theorem outcome_accept (kind : TokenKind) (t : Token) (ts : List Token) :
    (accept kind).outcome (t :: ts) =
      if t.kind = kind then .ok (true, ts) else .ok (false, t :: ts) := by
  rw [outcome, accept]
  split <;> rfl

theorem outcome_expect (kind : TokenKind) (t : Token) (ts : List Token) :
    (expect kind).outcome (t :: ts) =
      if t.kind = kind then .ok (t.pos, ts) else .error (.missing kind.text (t :: ts)) := by
  rw [outcome, expect]
  split <;> rfl

theorem outcome_take (expected : String) (pick : Token → Option α) (t : Token)
    (ts : List Token) :
    (take expected pick).outcome (t :: ts) =
      match pick t with
      | some a => .ok (a, ts)
      | none => .error (.unexpected expected (t :: ts)) := by
  rw [outcome, take]
  cases pick t <;> rfl

theorem outcome_expression (ts : List Token) :
    expression.outcome ts = Operator.read [] .operand ts := by
  unfold outcome expression
  split
  · rename_i fault h
    exact h.symm
  · rename_i r h
    exact h.symm

theorem outcome_many (stop : TokenKind → Bool) (item : Token → Reader α) (t : Token)
    (ts : List Token) :
    outcome (many stop item) (t :: ts) =
      if stop t.kind then .ok ([], t :: ts)
      else do
        let (a, ts₁) ← (item t).outcome ts
        let (as, ts₂) ← outcome (many stop item) ts₁
        return (a :: as, ts₂) := by
  change Except.map _ (many stop item (t :: ts)) = _
  rw [many]
  split
  · rfl
  · unfold outcome
    cases item t ts with
    | error fault => rfl
    | ok r =>
      obtain ⟨⟨a, ts₁⟩, h₁⟩ := r
      change _ = Except.map _ (many stop item ts₁) >>= _
      dsimp only
      cases many stop item ts₁ <;> rfl

variable {f : α → β} {g : γ → δ}

/-- What is read and the tokens after it, at other places. -/
def moved (f : α → β) (r : α × List Token) : β × List Token := (f r.1, r.2.map (Token.move φ))

/-- From tokens at other places, one reader reads what the other one reads, exchanged by `f`. -/
def Moves (f : α → β) (p : Reader α) (q : Reader β) : Prop :=
  ∀ ts, Matches (fun e e' => e' = e.move φ) (fun r r' => r' = moved φ f r) (p.outcome ts)
    (q.outcome (ts.map (Token.move φ)))

variable {φ}

theorem Moves.pure (a : α) : Moves φ f (Pure.pure a) (Pure.pure (f a)) := fun _ => Matches.ok rfl

theorem Moves.pure_of_eq {a : α} {b : β} (h : f a = b) : Moves φ f (Pure.pure a) (Pure.pure b) :=
  h ▸ .pure a

theorem Moves.bind {p : Reader α} {q : Reader β} {k : α → Reader γ} {k' : β → Reader δ}
    (hp : Moves φ f p q) (hk : ∀ a, Moves φ g (k a) (k' (f a))) :
    Moves φ g (p >>= k) (q >>= k') := by
  intro ts
  rw [outcome_bind, outcome_bind]
  refine (hp ts).bind ?_
  rintro ⟨a, rest⟩ _ rfl
  exact hk a rest

theorem moves_accept (kind : TokenKind) : Moves φ id (accept kind) (accept kind) := by
  intro ts
  cases ts with
  | nil => exact Matches.ok rfl
  | cons t ts =>
    rw [List.map_cons, outcome_accept, outcome_accept]
    change Matches _ _ (if t.kind = kind then _ else _) (if t.kind = kind then _ else _)
    split
    · exact Matches.ok rfl
    · exact Matches.ok rfl

theorem moves_expect (kind : TokenKind) : Moves φ φ (expect kind) (expect kind) := by
  intro ts
  cases ts with
  | nil => exact Matches.error rfl
  | cons t ts =>
    rw [List.map_cons, outcome_expect, outcome_expect]
    change Matches _ _ (if t.kind = kind then _ else _) (if t.kind = kind then _ else _)
    split
    · exact Matches.ok rfl
    · exact Matches.error rfl

theorem moves_symbol (s : Symbol) : Moves φ id (symbol s) (symbol s) :=
  (moves_expect (.symbol s)).bind fun _ => .pure ()

theorem moves_keyword (k : Keyword) : Moves φ id (keyword k) (keyword k) :=
  (moves_expect (.keyword k)).bind fun _ => .pure ()

theorem moves_take (expected : String) {pick : Token → Option α} {pick' : Token → Option β}
    (h : ∀ t, pick' (t.move φ) = (pick t).map f) :
    Moves φ f (take expected pick) (take expected pick') := by
  intro ts
  cases ts with
  | nil => exact Matches.error rfl
  | cons t ts =>
    rw [List.map_cons, outcome_take, outcome_take, h]
    cases pick t with
    | some a => exact Matches.ok rfl
    | none => exact Matches.error rfl

theorem moves_name (expected : String) :
    Moves φ (Name.relabel (.moving φ)) (name expected) (name expected) := by
  refine moves_take expected fun t => ?_
  obtain ⟨kind, pos⟩ := t
  cases kind <;> rfl

theorem moves_expression : Moves φ (Expr.relabel (.moving φ)) expression expression := by
  intro ts
  rw [outcome_expression, outcome_expression]
  exact Operator.matches_read φ [] .operand ts

theorem moves_many (stop : TokenKind → Bool) {item : Token → Reader α} {item' : Token → Reader β}
    (h : ∀ t, Moves φ f (item t) (item' (t.move φ))) :
    Moves φ (List.map f) (many stop item) (many stop item') := by
  intro ts
  -- The list gets shorter by an item in each round.
  induction hlength : ts.length using Nat.strongRecOn generalizing ts with
  | ind n ih =>
    cases ts with
    | nil =>
      have hnil : ∀ {α : Type} (item : Token → Reader α),
          outcome (many stop item) [] = .ok ([], []) := by
        intro α item
        change Except.map _ (many stop item []) = _
        rw [many]
        rfl
      rw [List.map_nil, hnil, hnil]
      exact Matches.ok rfl
    | cons t ts =>
      rw [List.map_cons, outcome_many, outcome_many]
      change Matches _ _ (if stop t.kind = true then _ else _) (if stop t.kind = true then _ else _)
      split
      · exact Matches.ok rfl
      · refine (h t ts).attach.bind ?_
        rintro ⟨a, ts₁⟩ _ ⟨rfl, hitem, -⟩
        have hle := length_le_of_outcome hitem
        refine (ih ts₁.length (by simp at hlength hle; omega) ts₁ rfl).bind ?_
        rintro ⟨as, ts₂⟩ _ rfl
        exact Matches.ok rfl

theorem moves_parenthesized {item : Reader α} {item' : Reader β} (h : Moves φ f item item') :
    Moves φ (List.map f) (parenthesized item) (parenthesized item') := by
  refine (moves_symbol .lparen).bind fun _ => (moves_accept _).bind fun closed => ?_
  cases closed with
  | true => exact .pure []
  | false =>
    exact h.bind fun first => (moves_many endsList fun _ => h).bind fun others =>
      (moves_symbol .rparen).bind fun _ => .pure (first :: others)

/-! ## Statements -/

/-- A literal that is a number, at a position of its own. -/
def numberOutcome (pos numberPos : Position) (otherwise : ParseFault) (rest : List Token) :
    Option (Except Cause Literal) → Except ParseFault ((Position × Literal) × List Token)
  | some (.ok value) => .ok ((pos, value), rest)
  | some (.error cause) => .error ⟨cause, numberPos⟩
  | none => .error otherwise

theorem matches_numberOutcome (pos numberPos : Position) (otherwise : ParseFault)
    (rest : List Token) (value : Option (Except Cause Literal)) :
    Matches (fun e e' => e' = e.move φ) (fun r r' => r' = moved φ (Prod.map φ id) r)
      (numberOutcome pos numberPos otherwise rest value)
      (numberOutcome (φ pos) (φ numberPos) (otherwise.move φ) (rest.map (Token.move φ)) value) := by
  cases value with
  | none => exact Matches.error rfl
  | some value =>
    cases value with
    | ok value => exact Matches.ok rfl
    | error cause => exact Matches.error rfl

theorem outcome_literal_minus (pos : Position) (u : Token) (ts : List Token) :
    literal.outcome (⟨.symbol .minus, pos⟩ :: u :: ts) =
      numberOutcome pos u.pos ⟨.danglingMinus, pos⟩ ts (Literal.ofNumber? true u.kind) := by
  simp only [outcome, literal]
  cases Literal.ofNumber? true u.kind with
  | none => rfl
  | some value => cases value <;> rfl

theorem outcome_literal_integer (n : Nat) (pos : Position) (ts : List Token) :
    literal.outcome (⟨.integer n, pos⟩ :: ts) =
      numberOutcome pos pos (.unexpected "literal value" (⟨.integer n, pos⟩ :: ts)) ts
        (Literal.ofNumber? false (.integer n)) := by
  simp only [outcome, literal]
  cases Literal.ofNumber? false (.integer n) with
  | none => rfl
  | some value => cases value <;> rfl

theorem moves_literal : Moves φ (Prod.map φ id) literal literal := by
  intro ts
  cases ts with
  | nil => exact Matches.error rfl
  | cons t ts =>
    obtain ⟨kind, pos⟩ := t
    cases kind with
    | keyword k => cases k <;> first | exact Matches.ok rfl | exact Matches.error rfl
    | symbol s =>
      cases s with
      | minus =>
        cases ts with
        | nil => exact Matches.error rfl
        | cons u ts =>
          rw [List.map_cons, List.map_cons, outcome_literal_minus, Token.move,
            outcome_literal_minus]
          exact matches_numberOutcome pos u.pos _ ts _
      | _ => exact Matches.error rfl
    | name text => exact Matches.error rfl
    | device slot => exact Matches.error rfl
    | float value => exact Matches.ok rfl
    | integer n =>
      rw [List.map_cons, outcome_literal_integer, Token.move, outcome_literal_integer]
      exact matches_numberOutcome pos pos _ ts _

theorem moves_deviceProperty :
    Moves φ (Prod.map (Device.relabel (.moving φ)) id) deviceProperty deviceProperty := by
  refine (moves_take (f := Device.relabel (.moving φ)) _ fun t => ?_).bind fun device =>
    (moves_symbol .dot).bind fun _ => (moves_name _).bind fun property =>
      .pure (device, property.text)
  obtain ⟨kind, pos⟩ := t
  cases kind <;> rfl

variable {item : Token → Reader Stmt}

/-- A statement is read alike at other places. -/
abbrev MovesStmt (φ : Position ↪ Position) (p q : Reader Stmt) : Prop :=
  Moves φ (Stmt.relabel (.moving φ)) p q

/-- Statements are read alike, wherever they stand. -/
abbrev Everywhere (φ : Position ↪ Position) (item : Token → Reader Stmt) : Prop :=
  ∀ t, MovesStmt φ (item t) (item (t.move φ))

theorem moves_blockRest (h : Everywhere φ item) :
    Moves φ (List.map (Stmt.relabel (.moving φ))) (blockRest item) (blockRest item) :=
  (moves_many _ h).bind fun body => (moves_symbol .rbrace).bind fun _ => .pure body

theorem moves_block (h : Everywhere φ item) :
    Moves φ (Prod.map φ (List.map (Stmt.relabel (.moving φ)))) (block item) (block item) :=
  (moves_expect _).bind fun pos => (moves_blockRest h).bind fun body => .pure (pos, body)

theorem moves_nameSlotRest (pos : Position) :
    MovesStmt φ (nameSlotRest pos) (nameSlotRest (φ pos)) := by
  refine (moves_take (f := Prod.map φ id) _ fun t => ?_).bind fun slot =>
    (moves_keyword .as_).bind fun _ => (moves_name _).bind fun x =>
      (moves_symbol .semicolon).bind fun _ => .pure (Stmt.nameSlot pos slot.1 slot.2 x)
  obtain ⟨kind, pos⟩ := t
  cases kind <;> rfl

theorem moves_constRest (pos : Position) : MovesStmt φ (constRest pos) (constRest (φ pos)) :=
  (moves_name _).bind fun x => (moves_symbol .assign).bind fun _ => moves_literal.bind fun value =>
    (moves_symbol .semicolon).bind fun _ => .pure (Stmt.const pos x value.1 value.2)

theorem moves_defineRest (pos : Position) : MovesStmt φ (defineRest pos) (defineRest (φ pos)) :=
  (moves_name _).bind fun x => (moves_symbol .assign).bind fun _ =>
    moves_expression.bind fun value => (moves_symbol .semicolon).bind fun _ =>
      .pure (Stmt.define pos x value)

theorem moves_functionRest (h : Everywhere φ item) (pos : Position) :
    MovesStmt φ (functionRest item pos) (functionRest item (φ pos)) := by
  refine (moves_name _).bind fun x => (moves_parenthesized (moves_name _)).bind fun params =>
    (moves_block h).bind fun body => ?_
  exact .pure_of_eq (by rw [Stmt.relabel, Stmt.relabelAll_eq_map]; rfl)

theorem moves_loopRest (h : Everywhere φ item) (pos : Position) :
    MovesStmt φ (loopRest item pos) (loopRest item (φ pos)) := by
  refine (moves_block h).bind fun body => ?_
  exact .pure_of_eq (by rw [Stmt.relabel, Stmt.relabelAll_eq_map]; rfl)

theorem moves_ifRest (h : Everywhere φ item) (pos : Position) :
    MovesStmt φ (ifRest item pos) (ifRest item (φ pos)) := by
  refine (moves_symbol .lparen).bind fun _ => moves_expression.bind fun condition =>
    (moves_symbol .rparen).bind fun _ => (moves_block h).bind fun thenBody =>
      (moves_accept _).bind fun found => ?_
  cases found with
  | true =>
    refine (moves_block h).bind fun elseBody => ?_
    exact .pure_of_eq (by rw [Stmt.relabel, Stmt.relabelAll_eq_map, Stmt.relabelAll_eq_map]; rfl)
  | false => exact .pure_of_eq (by rw [Stmt.relabel, Stmt.relabelAll_eq_map]; rfl)

theorem moves_readRest (pos : Position) : MovesStmt φ (readRest pos) (readRest (φ pos)) :=
  moves_deviceProperty.bind fun place => (moves_keyword .into).bind fun _ =>
    (moves_name _).bind fun target => (moves_symbol .semicolon).bind fun _ =>
      .pure (Stmt.read pos place.1 place.2 target)

theorem moves_writeRest (pos : Position) : MovesStmt φ (writeRest pos) (writeRest (φ pos)) :=
  moves_expression.bind fun value => (moves_keyword .into).bind fun _ =>
    moves_deviceProperty.bind fun place => (moves_symbol .semicolon).bind fun _ =>
      .pure (Stmt.write pos value place.1 place.2)

theorem moves_nameRest (x : Name) :
    MovesStmt φ (nameRest x) (nameRest (x.relabel (.moving φ))) := by
  have hassignment : MovesStmt φ (nameRest.assignment x)
      (nameRest.assignment (x.relabel (.moving φ))) :=
    (moves_symbol .assign).bind fun _ => moves_expression.bind fun value =>
      (moves_symbol .semicolon).bind fun _ => .pure (Stmt.assign x value)
  have hcall : MovesStmt φ (nameRest.call x) (nameRest.call (x.relabel (.moving φ))) :=
    (moves_parenthesized moves_expression).bind fun args =>
      (moves_symbol .semicolon).bind fun _ => .pure (Stmt.call x args)
  have hstarts : ∀ (s : Symbol) (ts : List Token),
      nameRest.startsWith s (ts.map (Token.move φ)) = nameRest.startsWith s ts := by
    intro s ts
    cases ts <;> rfl
  intro ts
  have houtcome : ∀ (x : Name) (ts : List Token), (nameRest x).outcome ts =
      if nameRest.startsWith .assign ts then (nameRest.assignment x).outcome ts
      else if nameRest.startsWith .lparen ts then (nameRest.call x).outcome ts
      else .error (.unexpected "'=' or '(' after a name" ts) := by
    intro x ts
    unfold outcome nameRest
    split
    · rfl
    · split <;> rfl
  rw [houtcome, houtcome, hstarts, hstarts, ParseFault.unexpected_move]
  split
  · exact hassignment ts
  · split
    · exact hcall ts
    · exact Matches.error rfl

theorem moves_statement (depth : Nat) : Everywhere φ (statement depth) := by
  induction depth with
  | zero => exact fun t ts => Matches.error rfl
  | succ depth ih =>
    intro t
    obtain ⟨kind, pos⟩ := t
    have hother : ∀ kind : TokenKind, MovesStmt φ
        (fun ts => .error (.unexpected "statement" (⟨kind, pos⟩ :: ts)))
        (fun ts => .error (.unexpected "statement" (⟨kind, φ pos⟩ :: ts))) :=
      fun kind ts => Matches.error rfl
    cases kind with
    | keyword k =>
      cases k with
      | def_ => exact moves_nameSlotRest pos
      | const => exact moves_constRest pos
      | let_ => exact moves_defineRest pos
      | fn => exact moves_functionRest ih pos
      | loop => exact moves_loopRest ih pos
      | if_ => exact moves_ifRest ih pos
      | read => exact moves_readRest pos
      | write => exact moves_writeRest pos
      | yield => exact (moves_symbol .semicolon).bind fun _ => .pure (Stmt.yield pos)
      | _ => exact hother _
    | symbol s =>
      cases s with
      | lbrace =>
        refine (moves_blockRest ih).bind fun body => ?_
        exact .pure_of_eq (by rw [Stmt.relabel, Stmt.relabelAll_eq_map]; rfl)
      | _ => exact hother _
    | name text => exact moves_nameRest ⟨text, pos⟩
    | device slot | integer n | float x => exact hother _

end Reader

/-- From tokens at other places the same program is read at other places, or the same fault is
found. -/
theorem Program.matches_parse (φ : Position ↪ Position) (ts : List Token) (limits : Limits) :
    Matches (fun e e' => e' = e.move φ) (fun p p' => p' = p.relabel (.moving φ)) (parse ts limits)
      (parse (ts.map (Token.move φ)) limits) := by
  have houtcome : ∀ ts : List Token, parse ts limits =
      (Reader.outcome (Reader.many (fun _ => false) (Reader.statement limits.nesting)) ts).map
        fun r => ⟨r.1⟩ := by
    intro ts
    unfold parse Reader.outcome
    cases Reader.many (fun _ => false) (Reader.statement limits.nesting) ts <;> rfl
  have hmany := Reader.moves_many (fun _ => false)
    (Reader.moves_statement (φ := φ) limits.nesting) ts
  rw [houtcome, houtcome]
  refine hmany.bind ?_
  rintro ⟨sts, rest⟩ _ rfl
  refine Matches.ok ?_
  rw [Program.relabel, Stmt.relabelAll_eq_map]
  rfl

end Chipwright
