import Mathlib.Data.List.Basic
import Chipwright.Program.Operator
import Chipwright.Proofs.Grammar

/-!
# Reading expressions

The chain of waiting operators reads exactly the phrases of the grammar. `Pending` says which
tokens a chain of waiting operators stands for, so that reading on completes a phrase; for the
way back, `readsPhrase_of_expression` says that reading a phrase of a level leaves only waiting
operators that bind at least as tightly as the level.
-/
namespace Chipwright

/-- An operator token spells the operator it is read as. -/
theorem BinaryOp.ofSymbol?_eq_some_iff {s : Symbol} {op : BinaryOp} :
    BinaryOp.ofSymbol? s = some op ↔ s.text = op.text := by
  cases s <;> cases op <;> decide

theorem BinaryOp.one_le_precedence (op : BinaryOp) : 1 ≤ op.precedence := by
  cases op <;> decide

theorem BinaryOp.precedence_le (op : BinaryOp) : op.precedence ≤ 5 := by
  cases op <;> decide

theorem BinaryOp.precedence_of_isComparison {op : BinaryOp} (h : op.isComparison = true) :
    op.precedence = 3 := by
  cases op <;> first | rfl | cases h

namespace Grammar

/-- How tightly the phrases of a level hold together. -/
def Level.rank : Level → Nat
  | .disjunction => 1
  | .conjunction => 2
  | .comparison => 3
  | .sum => 4
  | .factor => 5
  | .unary => 6
  | .term => 7

@[simp] theorem rank_level (op : BinaryOp) : (level op).rank = op.precedence := by
  cases op <;> rfl

theorem Level.rank_next_le {l m : Level} (h : l.rank < m.rank) : l.next.rank ≤ m.rank := by
  cases l <;> cases m <;> simp_all [Level.rank, Level.next]

theorem Level.rank_lt_next {l m : Level} (h : l.rank < m.rank) : l.rank < l.next.rank := by
  cases l <;> cases m <;> simp_all [Level.rank, Level.next]

theorem Level.rank_injective {l m : Level} (h : l.rank = m.rank) : l = m := by
  cases l <;> cases m <;> simp_all [Level.rank]

@[simp] theorem rank_next_level (op : BinaryOp) :
    (level op).next.rank = op.precedence + 1 := by
  cases op <;> rfl

/-- A phrase of a level is one of every looser level. -/
theorem Expression.of_rank_le {l m : Level} {ts : List Token} {e : Expr}
    (h : Expression m ts e) (hle : l.rank ≤ m.rank) : Expression l ts e := by
  by_cases heq : l.rank = m.rank
  · exact Level.rank_injective heq ▸ h
  · have hlt : l.rank < m.rank := by omega
    have := Level.rank_lt_next hlt
    exact .next (of_rank_le h (Level.rank_next_le hlt))
termination_by m.rank - l.rank

/-- The tokens are a phrase of a level that holds together at least as tightly as `n`. -/
def Phrase (n : Nat) (ts : List Token) (e : Expr) : Prop :=
  ∃ l : Level, n ≤ l.rank ∧ Expression l ts e

namespace Phrase

variable {n m : Nat} {ts us : List Token} {e left right : Expr} {op : BinaryOp} {s : Symbol}
  {pos : Position}

theorem mono (h : Phrase n ts e) (hle : m ≤ n) : Phrase m ts e := by
  obtain ⟨l, hl, h⟩ := h
  exact ⟨l, by omega, h⟩

theorem expression {l : Level} (h : Phrase n ts e) (hle : l.rank ≤ n) : Expression l ts e := by
  obtain ⟨m, hm, h⟩ := h
  exact h.of_rank_le (by omega)

theorem of_expression {l : Level} (h : Expression l ts e) : Phrase l.rank ts e :=
  ⟨l, Nat.le_refl _, h⟩

theorem term (h : Expression .term ts e) : Phrase 7 ts e := of_expression h

/-- How tightly the left operand of an operator has to hold together. -/
def leftRank (op : BinaryOp) : Nat := if op.isComparison then 4 else op.precedence

theorem binary (spelled : s.text = op.text) (hleft : Phrase (leftRank op) ts left)
    (hright : Phrase (op.precedence + 1) us right) :
    Phrase op.precedence (ts ++ ⟨.symbol s, pos⟩ :: us) (.binary op left right) := by
  unfold leftRank at hleft
  split at hleft
  case isTrue hop =>
    have hprec := BinaryOp.precedence_of_isComparison hop
    rw [hprec] at hright ⊢
    exact of_expression (l := .comparison)
      (.compare hop spelled (hleft.expression (Nat.le_refl 4)) (hright.expression (Nat.le_refl 4)))
  case isFalse hop =>
    rw [← rank_level]
    exact of_expression (.chain (by simpa using hop) spelled
      (hleft.expression (by simp)) (hright.expression (by simp)))

theorem not (h : Phrase 6 ts e) : Phrase 6 (⟨.symbol .not, pos⟩ :: ts) (.not pos e) :=
  of_expression (l := .unary) (.not (h.expression (Nat.le_refl 6)))

theorem parenthesized {pos' : Position} (h : Phrase 1 ts e) :
    Phrase 7 (⟨.symbol .lparen, pos⟩ :: ts ++ [⟨.symbol .rparen, pos'⟩]) e :=
  term (.parenthesized (h.expression (Nat.le_refl 1)))

end Phrase

/-- A number after a minus or without one is a literal. -/
theorem isLiteral_of_ofNumber? {kind : TokenKind} {pos : Position} {x : Literal}
    (h : Literal.ofNumber? false kind = some (.ok x)) : IsLiteral [⟨kind, pos⟩] pos x := by
  cases kind with
  | integer n =>
    simp only [Literal.ofNumber?, Bool.false_eq_true, ↓reduceIte] at h
    split at h
    case isTrue hn =>
      obtain rfl : Literal.int n = x := by simpa using h
      exact .integer hn
    case isFalse => simp at h
  | float x =>
    obtain rfl : Literal.float x = _ := by simpa [Literal.ofNumber?] using h
    exact .float
  | _ => simp [Literal.ofNumber?] at h

theorem isLiteral_of_ofNumber?_minus {kind : TokenKind} {x : Literal} (pos pos' : Position)
    (h : Literal.ofNumber? true kind = some (.ok x)) :
    IsLiteral [⟨.symbol .minus, pos⟩, ⟨kind, pos'⟩] pos x := by
  cases kind with
  | integer n =>
    obtain rfl : Literal.int (-n) = x := by simpa [Literal.ofNumber?] using h
    exact .negative
  | float x =>
    obtain rfl : Literal.float x.neg = _ := by simpa [Literal.ofNumber?] using h
    exact .negativeFloat
  | _ => simp [Literal.ofNumber?] at h

end Grammar

namespace Operator

open Grammar

variable {op : BinaryOp} {pos : Position}

/-- How tightly the operand that a chain of waiting operators awaits has to hold together. -/
def demand : List Waiting → Nat
  | [] => 1
  | .paren :: _ => 1
  | .not _ :: _ => 6
  | .binary op _ :: _ => op.precedence + 1

/-- The tokens that a chain of waiting operators stands for. -/
inductive Pending : List Waiting → List Token → Prop
  | nil : Pending [] []
  | paren {ws ts pos} (outer : Pending ws ts) :
      Pending (.paren :: ws) (ts ++ [⟨.symbol .lparen, pos⟩])
  | not {ws ts pos} (outer : Pending ws ts) :
      Pending (.not pos :: ws) (ts ++ [⟨.symbol .not, pos⟩])
  | binary {ws ts us op left s pos} (outer : Pending ws ts) (tighter : demand ws ≤ op.precedence)
      (spelled : s.text = op.text) (hleft : Phrase (Phrase.leftRank op) us left) :
      Pending (.binary op left :: ws) (ts ++ us ++ [⟨.symbol s, pos⟩])

/-- The tokens of an operand. One that holds together no tighter than a comparison and is not
marked as a comparison is a sum. -/
structure Operand.Reads (x : Operand) (n : Nat) (ts : List Token) : Prop where
  phrase : Phrase n ts x.expr
  sum : x.comparison = false → n = 3 → Phrase 4 ts x.expr

theorem Operand.Reads.of_term {x : Operand} {ts : List Token} (h : Phrase 7 ts x.expr) :
    x.Reads 7 ts :=
  ⟨h, fun _ h7 => absurd h7 (by decide)⟩

theorem demand_le {ws : List Waiting} : demand ws ≤ 6 := by
  match ws with
  | [] | .paren :: _ | .not _ :: _ => simp [demand]
  | .binary op _ :: _ =>
    have hprecedence := op.precedence_le
    simp only [demand]
    omega

variable {ws ws' : List Waiting} {x x' : Operand} {ts us rest : List Token} {e : Expr}

/-- Completing an operator that waits gives the tokens of both together. -/
theorem Pending.complete {w : Waiting} {n : Nat} (hws : Pending (w :: ws) ts)
    (hx : x.Reads n us) (hn : demand (w :: ws) ≤ n) (hw : 1 ≤ w.precedence) :
    ∃ ts' us', ts ++ us = ts' ++ us' ∧ Pending ws ts' ∧
      (w.complete x).Reads w.precedence us' ∧ demand ws ≤ w.precedence := by
  cases hws with
  | paren outer => simp [Waiting.precedence] at hw
  | @not _ ts pos outer =>
    refine ⟨ts, ⟨.symbol .not, pos⟩ :: us, by simp, outer, ⟨?_, ?_⟩, demand_le⟩
    · exact (hx.phrase.mono (by simpa [demand] using hn)).not
    · simp [Waiting.precedence]
  | @binary _ ts vs op left s pos outer tighter spelled hleft =>
    refine ⟨ts, vs ++ ⟨.symbol s, pos⟩ :: us, by simp, outer, ⟨?_, ?_⟩, tighter⟩
    · exact .binary spelled hleft (hx.phrase.mono (by simpa [demand] using hn))
    · intro hcomparison hthree
      have : op.isComparison = true := by
        revert hthree; cases op <;> simp [Waiting.precedence, BinaryOp.precedence,
          BinaryOp.isComparison]
      simp [Waiting.complete, this] at hcomparison

/-- Completing all operators that bind tightly enough keeps the tokens, and what still waits
may wait for an operator of the given tightness. -/
theorem Pending.reduce {least n : Nat} (hws : Pending ws ts) (hx : x.Reads n us)
    (hdemand : demand ws ≤ n) (hleast : least ≤ n) (hone : 1 ≤ least) (hsix : least ≤ 6)
    (h : reduce least ws x = (ws', x')) :
    ∃ ts' us' m, ts ++ us = ts' ++ us' ∧ Pending ws' ts' ∧ x'.Reads m us' ∧
      least ≤ m ∧ demand ws' ≤ least := by
  induction ws generalizing x ts us n with
  | nil =>
    obtain ⟨rfl, rfl⟩ : [] = ws' ∧ x = x' := by simpa [Operator.reduce] using h
    exact ⟨ts, us, n, rfl, hws, hx, hleast, hone⟩
  | cons w ws ih =>
    rw [Operator.reduce] at h
    split at h
    case isTrue hw =>
      obtain ⟨ts₁, us₁, heq, hws₁, hx₁, hdemand₁⟩ := hws.complete hx hdemand (by omega)
      obtain ⟨ts', us', m, heq', hrest⟩ := ih hws₁ hx₁ hdemand₁ hw h
      exact ⟨ts', us', m, heq.trans heq', hrest⟩
    case isFalse hw =>
      obtain ⟨rfl, rfl⟩ : w :: ws = ws' ∧ x = x' := by simpa using h
      refine ⟨ts, us, n, rfl, hws, hx, hleast, ?_⟩
      cases w <;> simp only [demand, Waiting.precedence] at hw ⊢ <;> omega

/-- The tokens after an expression do not continue it. -/
def Stops (rest : List Token) : Prop := ∀ t ∈ rest.head?, BinaryOp.ofToken? t.kind = none

/-- The tokens read since the last operator, as the next one is read. -/
def Expecting.Since : Expecting → List Token → Prop
  | .operand, us => us = []
  | .number minus, us => us = [⟨.symbol .minus, minus⟩]
  | .operator x, us => Phrase 7 us x.expr

theorem isExpr_of_finish (hws : Pending ws ts) (hx : Phrase 7 us x.expr) {after : List Token}
    (h : finish ws x after = .ok (e, rest)) : after = rest ∧ IsExpr (ts ++ us) e := by
  unfold finish at h
  split at h
  case h_1 x' hreduce =>
    obtain ⟨rfl, rfl⟩ : x'.expr = e ∧ after = rest := by simpa using h
    obtain ⟨ts', us', m, heq, hws', hx', hm, -⟩ := hws.reduce (.of_term hx)
      (Nat.le_trans demand_le (by decide)) (by decide) (Nat.le_refl _) (by decide) hreduce
    cases hws'
    exact ⟨rfl, heq ▸ hx'.phrase.expression hm⟩
  case h_2 => simp at h

/-- A closing parenthesis makes a term of all since the opening one. -/
theorem Pending.close (hws : Pending ws ts) (hx : Phrase 7 us x.expr) (pos : Position)
    (h : close? ws x = some (ws', x')) :
    ∃ ts' us', ts ++ us ++ [⟨.symbol .rparen, pos⟩] = ts' ++ us' ∧ Pending ws' ts' ∧
      Phrase 7 us' x'.expr := by
  unfold close? at h
  split at h
  case h_1 ws₁ x₁ hreduce =>
    obtain ⟨rfl, rfl⟩ : ws₁ = ws' ∧ Waiting.paren.complete x₁ = x' := by simpa using h
    obtain ⟨ts', us', m, heq, hws', hx', hm, -⟩ := hws.reduce (.of_term hx)
      (Nat.le_trans demand_le (by decide)) (by decide) (Nat.le_refl _) (by decide) hreduce
    cases hws' with
    | @paren _ ts₁ pos₁ outer =>
      refine ⟨ts₁, ⟨.symbol .lparen, pos₁⟩ :: us' ++ [⟨.symbol .rparen, pos⟩], ?_, outer, ?_⟩
      · simp [heq]
      · exact (hx'.phrase.mono hm).parenthesized
  case h_2 => simp at h

/-- An operator that may follow an operand waits for the next one. -/
theorem Pending.push {s : Symbol} (hws : Pending ws ts) (hx : Phrase 7 us x.expr) (pos : Position)
    (spelled : s.text = op.text) (h : Operator.reduce op.precedence ws x = (ws', x'))
    (hchain : (op.isComparison && x'.comparison) = false) :
    Pending (.binary op x'.expr :: ws') (ts ++ us ++ [⟨.symbol s, pos⟩]) := by
  have hseven : op.precedence ≤ 7 := Nat.le_trans op.precedence_le (by decide)
  obtain ⟨ts', us', m, heq, hws', hx', hm, hdemand⟩ := hws.reduce (.of_term hx)
    (Nat.le_trans demand_le (by decide)) hseven op.one_le_precedence
    (Nat.le_trans op.precedence_le (by decide)) h
  have hleft : Phrase (Phrase.leftRank op) us' x'.expr := by
    unfold Phrase.leftRank
    split
    case isTrue hop =>
      rw [BinaryOp.precedence_of_isComparison hop] at hm
      rcases Nat.eq_or_lt_of_le hm with hthree | hfour
      · exact hx'.sum (by simpa [hop] using hchain) hthree.symm
      · exact hx'.phrase.mono hfour
    case isFalse => exact hx'.phrase.mono hm
  rw [heq]
  exact .binary hws' hdemand spelled hleft

/-- Some tokens from the front of `ts` complete an expression, and `rest` stops it. -/
def Completes (done ts : List Token) (e : Expr) (rest : List Token) : Prop :=
  ∃ used, ts = used ++ rest ∧ IsExpr (done ++ used) e ∧ Stops rest

theorem Completes.cons {done done' : List Token} {t : Token} (h : Completes done' ts e rest)
    (hdone : done' = done ++ [t]) : Completes done (t :: ts) e rest := by
  obtain ⟨used, rfl, he, hrest⟩ := h
  exact ⟨t :: used, rfl, by simpa [hdone] using he, hrest⟩

theorem completes_of_finish {after : List Token} (hws : Pending ws ts) (hx : Phrase 7 us x.expr)
    (h : finish ws x after = .ok (e, rest)) (hafter : Stops after) :
    Completes (ts ++ us) after e rest := by
  obtain ⟨rfl, he⟩ := isExpr_of_finish hws hx h
  exact ⟨[], rfl, by simpa using he, hafter⟩

theorem completes_of_read {expecting : Expecting} (h : read ws expecting ts = .ok (e, rest))
    {pre since : List Token} (hws : Pending ws pre) (hsince : expecting.Since since) :
    Completes (pre ++ since) ts e rest := by
  -- Each token read goes from the tokens ahead to those that are waiting or since then.
  fun_induction read ws expecting ts generalizing pre since with
  | case1 | case9 | case10 | case11 | case13 | case14 | case19 => simp at h
  | case2 ws t ts hkind ih =>
    obtain rfl := hsince
    exact (ih h (.not hws) rfl).cons (by simp [← hkind])
  | case3 ws t ts hkind ih =>
    obtain rfl := hsince
    have hparen : Pending (.paren :: ws) (pre ++ [⟨.symbol .lparen, t.pos⟩]) := .paren hws
    exact (ih h hparen rfl).cons (by simp [← hkind])
  | case4 ws t ts hkind ih =>
    obtain rfl := hsince
    exact (ih h hws rfl).cons (by simp [← hkind])
  | case5 ws t ts hkind ih =>
    obtain rfl := hsince
    exact (ih h hws (Phrase.term (.literal .true_))).cons (by simp [← hkind])
  | case6 ws t ts hkind ih =>
    obtain rfl := hsince
    exact (ih h hws (Phrase.term (.literal .false_))).cons (by simp [← hkind])
  | case7 ws t ts text hkind ih =>
    obtain rfl := hsince
    exact (ih h hws (Phrase.term .name)).cons (by simp [← hkind])
  | case8 ws t ts value _ _ _ _ _ _ hnumber ih =>
    obtain rfl := hsince
    exact (ih h hws (Phrase.term (.literal (isLiteral_of_ofNumber? hnumber)))).cons (by simp)
  | case12 ws minus t ts value hnumber ih =>
    obtain rfl := hsince
    have hliteral := isLiteral_of_ofNumber?_minus minus t.pos hnumber
    exact (ih h hws (Phrase.term (.literal hliteral))).cons (by simp)
  | case15 ws x => exact completes_of_finish hws hsince h (by simp [Stops])
  | case16 ws x t ts hkind ws' x' hclose ih =>
    obtain ⟨pre', since', heq, hws', hx'⟩ := hws.close hsince t.pos hclose
    exact (ih h hws' hx').cons (by simp [← heq, ← hkind])
  | case17 ws x t ts hkind =>
    exact completes_of_finish hws hsince h (by simp [Stops, hkind, BinaryOp.ofToken?,
      BinaryOp.ofSymbol?])
  | case18 ws x t ts _ hkind =>
    exact completes_of_finish hws hsince h (by simpa [Stops] using hkind)
  | case20 ws x t ts _ op hop ws' x' hreduce hchain ih =>
    obtain ⟨kind, pos⟩ := t
    cases kind with
    | symbol s =>
      have hpush := hws.push hsince pos (BinaryOp.ofSymbol?_eq_some_iff.1 hop) hreduce
        (by simpa using hchain)
      exact (ih h hpush rfl).cons (by simp)
    | _ => simp [BinaryOp.ofToken?] at hop

/-- What is read is an expression of the grammar, and the token after it does not continue
it. -/
theorem isExpr_of_read (h : read [] .operand ts = .ok (e, rest)) :
    ∃ used, ts = used ++ rest ∧ IsExpr used e ∧ Stops rest := by
  have hcompletes : Completes ([] ++ []) ts e rest := completes_of_read h .nil rfl
  simpa [Completes] using hcompletes

/-! ### Reading every phrase -/

/-- An operator as tight as what is awaited completes nothing that waits. -/
theorem reduce_of_demand_le {least : Nat} (hleast : demand ws ≤ least) (hfive : least ≤ 5) :
    reduce least ws x = (ws, x) := by
  cases ws with
  | nil => rfl
  | cons w ws =>
    have hlt : ¬ least ≤ w.precedence := by
      cases w <;> simp only [demand, Waiting.precedence] at hleast ⊢ <;> omega
    simp [reduce, hlt]

theorem reduce_cons_of_le {w : Waiting} {least : Nat} (h : least ≤ w.precedence) :
    reduce least (w :: ws) x = reduce least ws (w.complete x) := by
  simp [reduce, h]

/-- After a phrase, what waits in addition is completed by every operator that is no tighter
than the phrase, and that gives the phrase. -/
def After (ws : List Waiting) (n : Nat) (e : Expr) (ws' : List Waiting) (x : Operand) : Prop :=
  ∃ comparison, (4 ≤ n → comparison = false) ∧
    ∀ least, 1 ≤ least → least ≤ n → reduce least ws' x = reduce least ws ⟨e, comparison⟩

theorem After.mono {n m : Nat} (h : After ws n e ws' x) (hle : m ≤ n) : After ws m e ws' x := by
  obtain ⟨comparison, hfour, hreduce⟩ := h
  exact ⟨comparison, fun hm => hfour (by omega), fun least h₁ hm => hreduce least h₁ (by omega)⟩

theorem After.of_term : After ws 7 e ws ⟨e, false⟩ :=
  ⟨false, fun _ => rfl, fun _ _ _ => rfl⟩

/-- Reading the tokens of a phrase where an operand is expected. -/
def ReadsPhrase (n : Nat) (ts : List Token) (e : Expr) : Prop :=
  ∀ ws, demand ws ≤ n → ∃ ws' x, After ws n e ws' x ∧
    ∀ rest, read ws .operand (ts ++ rest) = read ws' (.operator x) rest

theorem readsPhrase_literal {value : Literal} (h : IsLiteral ts pos value) :
    ReadsPhrase 7 ts (.literal pos value) := by
  intro ws _
  refine ⟨ws, ⟨_, false⟩, .of_term, fun rest => ?_⟩
  cases h with
  | integer bound =>
    have hbound : _ ≤ Literal.greatest := bound
    simp [read, Literal.ofNumber?, hbound]
  | _ => simp [read, Literal.ofNumber?]

/-- An operator token is no closing parenthesis. -/
theorem ne_rparen_of_ofToken? {kind : TokenKind} (h : BinaryOp.ofToken? kind = some op) :
    kind ≠ .symbol .rparen := by
  rintro rfl
  simp [BinaryOp.ofToken?, BinaryOp.ofSymbol?] at h

/-- An operator after its left operand waits for the right one. -/
theorem read_operator {t : Token} (hop : BinaryOp.ofToken? t.kind = some op)
    (hchain : (op.isComparison && x'.comparison) = false)
    (hreduce : reduce op.precedence ws x = (ws', x')) :
    read ws (.operator x) (t :: rest) = read (.binary op x'.expr :: ws') .operand rest := by
  simp [read, ne_rparen_of_ofToken? hop, hop, hreduce, hchain]

/-- After a phrase, an operator that is no tighter than it finds the phrase as its left
operand. -/
theorem After.reduce_eq {n : Nat} (h : After ws n e ws' x) (hws : demand ws ≤ op.precedence)
    (hn : op.precedence ≤ n) :
    ∃ c, (4 ≤ n → c = false) ∧ reduce op.precedence ws' x = (ws, ⟨e, c⟩) := by
  obtain ⟨c, hc, hreduce⟩ := h
  refine ⟨c, hc, ?_⟩
  rw [hreduce _ op.one_le_precedence hn, reduce_of_demand_le hws op.precedence_le]

/-- After the right operand of an operator, the phrase is that of the operator. -/
theorem After.binary {left right : Expr}
    (h : After (.binary op left :: ws) (op.precedence + 1) right ws' x) :
    After ws op.precedence (.binary op left right) ws' x := by
  obtain ⟨c, -, hreduce⟩ := h
  refine ⟨op.isComparison, fun hfour => ?_, fun least h₁ hle => ?_⟩
  · cases hop : op.isComparison
    · rfl
    · have := BinaryOp.precedence_of_isComparison hop
      omega
  · rw [hreduce least h₁ (by omega), reduce_cons_of_le hle]
    rfl

theorem After.not (h : After (.not pos :: ws) 6 e ws' x) : After ws 6 (.not pos e) ws' x := by
  obtain ⟨c, -, hreduce⟩ := h
  refine ⟨false, fun _ => rfl, fun least h₁ hle => ?_⟩
  rw [hreduce least h₁ hle, reduce_cons_of_le hle]
  rfl

/-- After an expression in parentheses, the closing one makes a term of it. -/
theorem After.close (h : After (.paren :: ws) 1 e ws' x) :
    close? ws' x = some (ws, ⟨e, false⟩) := by
  obtain ⟨c, -, hreduce⟩ := h
  unfold close?
  rw [hreduce 1 (Nat.le_refl _) (Nat.le_refl _)]
  rfl

theorem readsPhrase_binary {s : Symbol} {left right : Expr} {n : Nat} (spelled : s.text = op.text)
    (hleft : ReadsPhrase n ts left) (hn : op.precedence ≤ n)
    (hcomparison : op.isComparison = true → 4 ≤ n)
    (hright : ReadsPhrase (op.precedence + 1) us right) :
    ReadsPhrase op.precedence (ts ++ ⟨.symbol s, pos⟩ :: us) (.binary op left right) := by
  intro ws hws
  obtain ⟨ws₁, x₁, hafter₁, hread₁⟩ := hleft ws (by omega)
  obtain ⟨c, hc, hreduce⟩ := hafter₁.reduce_eq hws hn
  have hchain : (op.isComparison && c) = false := by
    cases hop : op.isComparison
    · rfl
    · simpa using hc (hcomparison hop)
  obtain ⟨ws₂, x₂, hafter₂, hread₂⟩ := hright (.binary op left :: ws) (Nat.le_refl _)
  refine ⟨ws₂, x₂, hafter₂.binary, fun rest => ?_⟩
  have hop : BinaryOp.ofToken? (.symbol s) = some op := BinaryOp.ofSymbol?_eq_some_iff.2 spelled
  rw [List.append_assoc, hread₁, List.cons_append, read_operator hop hchain hreduce, hread₂]

/-- Every phrase is read, level by level. -/
theorem readsPhrase_of_expression {l : Grammar.Level} (h : Expression l ts e) :
    ReadsPhrase l.rank ts e := by
  induction h with
  | @next l _ _ _ ih =>
    intro ws hws
    have hle : l.rank ≤ l.next.rank := by cases l <;> decide
    obtain ⟨ws', x, hafter, hread⟩ := ih ws (by omega)
    exact ⟨ws', x, hafter.mono hle, hread⟩
  | chain chains spelled _ _ ihleft ihright =>
    rw [rank_level] at ihleft ⊢
    rw [rank_next_level] at ihright
    exact readsPhrase_binary spelled ihleft (Nat.le_refl _) (by simp [chains]) ihright
  | @compare op _ _ _ us _ right compares spelled _ _ ihleft ihright =>
    have hprec := BinaryOp.precedence_of_isComparison compares
    have hright : ReadsPhrase (op.precedence + 1) us right := by rw [hprec]; exact ihright
    rw [show Grammar.Level.comparison.rank = op.precedence from hprec.symm]
    exact readsPhrase_binary spelled ihleft (by rw [hprec]; decide) (fun _ => Nat.le_refl 4) hright
  | @not pos _ e _ ih =>
    intro ws hws
    obtain ⟨ws', x, hafter, hread⟩ := ih (.not pos :: ws) (Nat.le_refl 6)
    exact ⟨ws', x, hafter.not, fun rest => by simp [read, hread]⟩
  | literal hx => exact readsPhrase_literal hx
  | name =>
    intro ws _
    exact ⟨ws, ⟨_, false⟩, .of_term, fun rest => by simp [read]⟩
  | @parenthesized ts e pos pos' _ ih =>
    intro ws _
    obtain ⟨ws', x, hafter, hread⟩ := ih (.paren :: ws) (Nat.le_refl 1)
    refine ⟨ws, ⟨e, false⟩, .of_term, fun rest => ?_⟩
    simp [read, hread, hafter.close]

/-- A token that does not continue an expression ends it, if nothing is left to wait. -/
theorem read_of_stops {c : Bool} (hreduced : reduce 1 ws x = ([], ⟨e, c⟩)) (hrest : Stops rest) :
    read ws (.operator x) rest = .ok (e, rest) := by
  have hfinish : finish ws x rest = .ok (e, rest) := by simp [finish, hreduced]
  cases rest with
  | nil => simpa [read] using hfinish
  | cons t rest =>
    have hkind : BinaryOp.ofToken? t.kind = none := hrest t (by simp)
    have hclose : close? ws x = none := by simp [close?, hreduced]
    simp [read, hclose, hkind, hfinish]

/-- Every expression of the grammar is read, up to a token that does not continue it. -/
theorem read_of_isExpr (h : IsExpr ts e) (hrest : Stops rest) :
    read [] .operand (ts ++ rest) = .ok (e, rest) := by
  obtain ⟨ws', x, hafter, hread⟩ := readsPhrase_of_expression h [] (Nat.le_refl 1)
  obtain ⟨c, -, hreduce⟩ := hafter
  rw [hread]
  exact read_of_stops (hreduce 1 (Nat.le_refl _) (Nat.le_refl _)) hrest

end Operator

end Chipwright
