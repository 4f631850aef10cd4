import Chipwright.Proofs.Parsing.Prompt
import Chipwright.Proofs.Spacing

/-!
# The first token that cannot stand where it does

If tokens are no program, the parser tells of the first one that cannot stand where it does: what
comes before can be completed to a program, in fact to the text of one, and no program starts with
the tokens up to there.

## Main definitions

* `Operator.Stuck`: where the reading of an expression fails
* `Program.FirstFault`: where a list of tokens is no start of a program any more

## Main statements

* `Operator.stuck_of_read`: expressions
* `Reader.promptStatements`: statements
* `Program.exists_firstFault`: programs
-/
namespace Chipwright

namespace Reader

open Grammar Operator Lexer

/-- What may follow an expression: a token that does not continue it. -/
def afterExpression (next : Option TokenKind) : Prop := ∀ kind ∈ next, BinaryOp.ofToken? kind = none

theorem stops_of_front {rest : List Token} (h : afterExpression (front rest)) :
    Operator.Stops rest := by
  intro t ht
  exact h t.kind (by rw [front, ht]; rfl)

end Reader

/-! ## Expressions -/

namespace Operator

open Lexer Reader

variable {ws : List Waiting} {x : Operand}

/-- Completing all operators leaves nothing or an open parenthesis, whatever the operand is. -/
theorem reduce_one (ws : List Waiting) :
    (∀ x, ∃ x', reduce 1 ws x = ([], x')) ∨
      ∃ ws', ws'.length < ws.length ∧ ∀ x, ∃ x', reduce 1 ws x = (.paren :: ws', x') := by
  induction ws with
  | nil => exact .inl fun x => ⟨x, rfl⟩
  | cons w ws ih =>
    by_cases hw : 1 ≤ w.precedence
    · simp only [reduce_cons_of_le hw]
      rcases ih with ih | ⟨ws', hlt, ih⟩
      · exact .inl fun x => ih (w.complete x)
      · exact .inr ⟨ws', Nat.lt_succ_of_lt hlt, fun x => ih (w.complete x)⟩
    · refine .inr ⟨ws, Nat.lt_succ_self _, fun x => ⟨x, ?_⟩⟩
      cases w with
      | paren => rfl
      | not pos => exact absurd (by decide : 1 ≤ 6) hw
      | binary op left => exact absurd op.one_le_precedence hw

/-- What has been read of an expression is completed by tokens of these kinds. -/
structure Fills (ws : List Waiting) (expecting : Expecting) (used : List Token)
    (kinds : List TokenKind) : Prop where
  writable : ∀ kind ∈ kinds, Writable kind
  reads : ∀ us rest, us.map (·.kind) = kinds → Stops rest →
    ∃ e, read ws expecting (used ++ (us ++ rest)) = .ok (e, rest)

/-- After an operand, an expression is completed by closing what is open. -/
theorem exists_fills_operator (ws : List Waiting) :
    ∃ kinds, ∀ x, Fills ws (.operator x) [] kinds := by
  induction hn : ws.length using Nat.strongRecOn generalizing ws with
  | _ n ih =>
  rcases reduce_one ws with hreduce | ⟨ws', hlt, hreduce⟩
  · refine ⟨[], fun x => ⟨List.forall_mem_nil _, fun us rest hus hrest => ?_⟩⟩
    obtain ⟨⟨e, c⟩, hx⟩ := hreduce x
    obtain rfl := List.map_eq_nil_iff.1 hus
    exact ⟨e, read_of_stops hx hrest⟩
  · obtain ⟨kinds, hkinds⟩ := ih ws'.length (hn ▸ hlt) ws' rfl
    refine ⟨.symbol .rparen :: kinds, fun x => ⟨?_, fun us rest hus hrest => ?_⟩⟩
    · exact List.forall_mem_cons.2 ⟨writable_symbol .rparen, (hkinds x).writable⟩
    · obtain ⟨x', hx'⟩ := hreduce x
      obtain ⟨t, us, rfl, ht, hus'⟩ := List.map_eq_cons_iff.1 hus
      obtain ⟨e, he⟩ := (hkinds (Waiting.paren.complete x')).reads us rest hus' hrest
      have hclose : close? ws x = some (ws', Waiting.paren.complete x') := by
        rw [close?, hx']
      rw [List.nil_append] at he
      exact ⟨e, by simp [read, ht, hclose, he]⟩

/-- A token that gives an operand, and what completes the expression after one. -/
theorem Fills.cons {expecting : Expecting} {kind : TokenKind} {kinds : List TokenKind}
    (operand : Position → Operand) (hkind : Writable kind)
    (hread : ∀ pos ts, read ws expecting (⟨kind, pos⟩ :: ts) = read ws (.operator (operand pos)) ts)
    (h : ∀ x, Fills ws (.operator x) [] kinds) : Fills ws expecting [] (kind :: kinds) where
  writable := List.forall_mem_cons.2 ⟨hkind, (h (operand .first)).writable⟩
  reads := by
    intro us rest hus hrest
    obtain ⟨⟨_, pos⟩, us, rfl, rfl, hus'⟩ := List.map_eq_cons_iff.1 hus
    obtain ⟨e, he⟩ := (h (operand pos)).reads us rest hus' hrest
    exact ⟨e, (hread pos (us ++ rest)).trans he⟩

theorem exists_fills_operand (ws : List Waiting) : ∃ kinds, Fills ws .operand [] kinds := by
  obtain ⟨kinds, hkinds⟩ := exists_fills_operator ws
  exact ⟨_, .cons (fun pos => ⟨.literal pos (.bool true), false⟩) (writable_keyword .true_)
    (fun pos ts => by rw [read]) hkinds⟩

theorem writable_integer : Writable (.integer 1) := by
  have hnumeral : numeral 10 ['1'] = 1 := rfl
  have hdigits : ∀ d ∈ ['1'], d.isDigit = true := List.all_eq_true.1 (by decide)
  exact ⟨['1'], hnumeral ▸ .decimal (by simp) hdigits (by decide) (by decide)⟩

theorem exists_fills_number (ws : List Waiting) (minus : Position) :
    ∃ kinds, Fills ws (.number minus) [] kinds := by
  obtain ⟨kinds, hkinds⟩ := exists_fills_operator ws
  exact ⟨_, .cons (fun _ => ⟨.literal minus (.int (-1)), false⟩) writable_integer
    (fun pos ts => by simp [read, Literal.ofNumber?]) hkinds⟩

/-- The minus that has been read without its number. -/
def Expecting.since : Expecting → List Token
  | .number minus => [⟨.symbol .minus, minus⟩]
  | _ => []

/-- An expression is read up to the first token that cannot stand there. -/
def Stuck (ws : List Waiting) (expecting : Expecting) (ts : List Token) (fault : ParseFault) :
    Prop :=
  ∃ used rest, ts = used ++ rest ∧ fault.Told (expecting.since ++ used) rest ∧
    (∀ rest', rest'.head? = rest.head? → read ws expecting (used ++ rest') = .error fault) ∧
    ∃ kinds, Fills ws expecting used kinds

variable {ws' : List Waiting} {expecting expecting' : Expecting} {t : Token} {ts : List Token}
  {fault : ParseFault}

/-- What is found after the next token is found before it. -/
theorem Stuck.cons (hread : ∀ ts, read ws expecting (t :: ts) = read ws' expecting' ts)
    (hsince : expecting'.since = [] ∨ expecting'.since = [t]) (h : Stuck ws' expecting' ts fault) :
    Stuck ws expecting (t :: ts) fault := by
  obtain ⟨used, rest, rfl, htold, hsame, kinds, hkinds⟩ := h
  refine ⟨t :: used, rest, rfl, ?_, fun rest' hrest' => ?_, kinds, hkinds.writable,
    fun us rest' hus hrest' => ?_⟩
  · rcases hsince with hsince | hsince
    · rw [hsince, List.nil_append] at htold
      rw [← List.singleton_append, ← List.append_assoc]
      exact htold.append _
    · rw [hsince] at htold
      exact htold.append _
  · exact (hread _).trans (hsame rest' hrest')
  · obtain ⟨e, he⟩ := hkinds.reads us rest' hus hrest'
    exact ⟨e, (hread _).trans he⟩

/-- The next token cannot stand here. -/
theorem stuck_here (htold : fault.Told expecting.since ts)
    (hread : ∀ ts', ts'.head? = ts.head? → read ws expecting ts' = .error fault)
    (hfills : ∃ kinds, Fills ws expecting [] kinds) : Stuck ws expecting ts fault :=
  ⟨[], ts, rfl, by simpa using htold, hread, hfills⟩

theorem ofNumber?_eq_error {negative : Bool} {kind : TokenKind} {cause : Cause}
    (h : Literal.ofNumber? negative kind = some (.error cause)) :
    negative = false ∧ ∃ n, kind = .integer n ∧ cause = .integerTooLarge (toString n) := by
  cases kind with
  | integer n =>
    cases negative with
    | true => simp [Literal.ofNumber?] at h
    | false =>
      simp only [Literal.ofNumber?, Bool.false_eq_true, if_false] at h
      split at h
      · cases h
      · exact ⟨rfl, n, rfl, by simpa using h.symm⟩
  | _ => cases h

theorem finish_of_head?_eq {ts' : List Token} (h : finish ws x ts = .error fault)
    (hts' : ts'.head? = ts.head?) : finish ws x ts' = .error fault ∧ fault.Told [] ts := by
  have hmissing : ParseFault.missing ")" ts' = .missing ")" ts := by
    cases ts' with
    | nil => rw [List.head?_eq_none_iff.1 hts'.symm]
    | cons t ts' =>
      obtain ⟨more, rfl⟩ := List.head?_eq_some_iff.1 hts'.symm
      rfl
  unfold finish at h ⊢
  split at h
  · cases h
  · cases h
    exact ⟨congrArg Except.error hmissing, .missing ")"⟩

theorem stuck_of_finish (h : finish ws x ts = .error fault)
    (hread : ∀ ts', ts'.head? = ts.head? → read ws (.operator x) ts' = finish ws x ts') :
    Stuck ws (.operator x) ts fault := by
  obtain ⟨kinds, hkinds⟩ := exists_fills_operator ws
  refine stuck_here (finish_of_head?_eq h rfl).2 (fun ts' hts' => ?_) ⟨kinds, hkinds x⟩
  exact (hread ts' hts').trans (finish_of_head?_eq h hts').1

theorem stuck_of_read (h : read ws expecting ts = .error fault) : Stuck ws expecting ts fault := by
  fun_induction read ws expecting ts with
  | case1 ws =>
    cases h
    refine stuck_here (.unexpected _) (fun ts' hts' => ?_) (exists_fills_operand ws)
    rw [List.head?_eq_none_iff.1 hts']
    rfl
  | case2 ws t ts hkind ih => exact (ih h).cons (fun ts => by rw [read, hkind]) (.inl rfl)
  | case3 ws t ts hkind ih => exact (ih h).cons (fun ts => by rw [read, hkind]) (.inl rfl)
  | case4 ws t ts hkind ih =>
    refine (ih h).cons (fun ts => by rw [read, hkind]) (.inr ?_)
    rw [Expecting.since, ← hkind]
  | case5 ws t ts hkind ih | case6 ws t ts hkind ih
  | case7 ws t ts text hkind ih => exact (ih h).cons (fun ts => by rw [read, hkind]) (.inl rfl)
  | case8 ws t ts value _ _ _ _ _ _ hnumber ih =>
    exact (ih h).cons (fun ts => by simp [read, hnumber]) (.inl rfl)
  | case9 ws t ts cause _ _ _ _ _ _ hnumber =>
    cases h
    obtain ⟨-, n, hkind, rfl⟩ := ofNumber?_eq_error hnumber
    obtain ⟨_, pos⟩ := t
    obtain rfl := hkind
    refine stuck_here .tooLarge (fun ts' hts' => ?_) (exists_fills_operand ws)
    obtain ⟨more, rfl⟩ := List.head?_eq_some_iff.1 hts'
    simp [read, hnumber]
  | case10 ws t ts _ _ _ _ _ _ hnumber =>
    cases h
    refine stuck_here (.unexpected _) (fun ts' hts' => ?_) (exists_fills_operand ws)
    obtain ⟨more, rfl⟩ := List.head?_eq_some_iff.1 hts'
    simp [read, hnumber, ParseFault.unexpected, Token.textAtFront]
  | case11 ws minus =>
    cases h
    refine stuck_here (@ParseFault.Told.dangling [] _ minus) (fun ts' hts' => ?_)
      (exists_fills_number ws minus)
    rw [List.head?_eq_none_iff.1 hts']
    rfl
  | case12 ws minus t ts value hnumber ih =>
    exact (ih h).cons (fun ts => by simp [read, hnumber]) (.inl rfl)
  | case13 ws minus t ts cause hnumber => cases (ofNumber?_eq_error hnumber).1
  | case14 ws minus t ts hnumber =>
    cases h
    refine stuck_here (@ParseFault.Told.dangling [] _ minus) (fun ts' hts' => ?_)
      (exists_fills_number ws minus)
    obtain ⟨more, rfl⟩ := List.head?_eq_some_iff.1 hts'
    simp [read, hnumber]
  | case15 ws x =>
    refine stuck_of_finish h fun ts' hts' => ?_
    rw [List.head?_eq_none_iff.1 hts']
    rfl
  | case16 ws x t ts hkind ws' x' hclose ih =>
    exact (ih h).cons (fun ts => by simp [read, hkind, hclose]) (.inl rfl)
  | case17 ws x t ts hkind hclose =>
    refine stuck_of_finish h fun ts' hts' => ?_
    obtain ⟨more, rfl⟩ := List.head?_eq_some_iff.1 hts'
    simp [read, hkind, hclose]
  | case18 ws x t ts hne hkind =>
    refine stuck_of_finish h fun ts' hts' => ?_
    obtain ⟨more, rfl⟩ := List.head?_eq_some_iff.1 hts'
    simp [read, hne, hkind]
  | case19 ws x t ts hne op hop ws' x' hreduce hchain =>
    cases h
    obtain ⟨kinds, hkinds⟩ := exists_fills_operator ws
    refine stuck_here (.chained t) (fun ts' hts' => ?_) ⟨kinds, hkinds x⟩
    obtain ⟨more, rfl⟩ := List.head?_eq_some_iff.1 hts'
    simp [read, hne, hop, hreduce, hchain]
  | case20 ws x t ts hne op hop ws' x' hreduce hchain ih =>
    exact (ih h).cons (fun ts => by simp [read, hne, hop, hreduce, hchain]) (.inl rfl)

end Operator

namespace Reader

open Grammar Operator Lexer

theorem promptFor_expression : PromptFor expression afterExpression [.keyword .true_] where
  reads := by
    intro ts e rest h
    obtain ⟨used, rfl, hused, hrest⟩ := reads_expression.1 h
    refine ⟨used, rfl, fun rest' hrest' => reads_expression.2 ⟨used, rfl, hused, ?_⟩⟩
    rcases hrest' with hrest' | hrest'
    · intro t ht
      exact hrest t (hrest' ▸ ht)
    · exact stops_of_front hrest'
  fails := by
    intro ts fault h
    have hread : ∀ {ts fault}, expression ts = .error fault ↔
        read [] .operand ts = .error fault := by
      intro ts fault
      unfold expression
      split <;> simp_all
    obtain ⟨used, rest, rfl, htold, hsame, kinds, hkinds⟩ := stuck_of_read (hread.1 h)
    refine ⟨used, rest, rfl, htold, fun rest' hrest' => hread.2 (hsame rest' hrest'),
      fun _ => ⟨kinds, hkinds.writable, by simp [afterExpression], fun us rest' hus hrest' => ?_⟩⟩
    obtain ⟨e, he⟩ := hkinds.reads us rest' hus (stops_of_front hrest')
    exact ⟨e, reads_expression.2 (isExpr_of_read he)⟩
  fills := by
    refine ⟨by simpa using writable_keyword .true_, by simp [afterExpression],
      fun us rest hus hrest => ?_⟩
    obtain ⟨⟨_, pos⟩, rfl, rfl⟩ : ∃ t : Token, us = [t] ∧ t.kind = .keyword .true_ := by
      simpa [List.map_eq_cons_iff] using hus
    have hexpr : IsExpr [⟨.keyword .true_, pos⟩] (.literal pos (.bool true)) :=
      (Phrase.term (.literal .true_)).expression (by decide)
    exact ⟨_, reads_expression.2 ⟨_, rfl, hexpr, stops_of_front hrest⟩⟩

theorem begins_expression : expression.Begins afterExpression (· ≠ some (.symbol .rparen)) := by
  intro ts e rest h _
  obtain ⟨used, rfl, hused, -⟩ := reads_expression.1 h
  obtain ⟨t, us, rfl, ht⟩ := hused.head_ne_rparen
  exact fun heq => ht (Option.some.inj heq)

/-! ## Statements -/

theorem fills_literal : literal.Fills anything [] [.keyword .true_] := by
  refine ⟨by simpa using writable_keyword .true_, trivial, fun us rest hus _ => ?_⟩
  obtain ⟨⟨_, pos⟩, rfl, rfl⟩ : ∃ t : Token, us = [t] ∧ t.kind = .keyword .true_ := by
    simpa [List.map_eq_cons_iff] using hus
  exact ⟨(pos, .bool true), reads_literal.2 ⟨_, rfl, .true_⟩⟩

/-- After a minus stands a number. -/
theorem stuck_literal_minus {pos : Position} {ts : List Token} {fault : ParseFault}
    (h : literal (⟨.symbol .minus, pos⟩ :: ts) = .error fault) :
    literal.Stuck anything (⟨.symbol .minus, pos⟩ :: ts) fault := by
  have hfills : literal.Fills anything [⟨.symbol .minus, pos⟩] [.integer 1] := by
    refine ⟨by simpa using writable_integer, trivial, fun us rest hus _ => ?_⟩
    obtain ⟨⟨_, pos'⟩, rfl, rfl⟩ : ∃ t : Token, us = [t] ∧ t.kind = .integer 1 := by
      simpa [List.map_eq_cons_iff] using hus
    exact ⟨(pos, .int (-1)), reads_literal.2 ⟨_, rfl, isLiteral_of_ofNumber?_minus pos pos' rfl⟩⟩
  have hdangling : (∀ ts', ts'.head? = ts.head? →
      literal (⟨.symbol .minus, pos⟩ :: ts') = .error ⟨.danglingMinus, pos⟩) →
      literal.Stuck anything (⟨.symbol .minus, pos⟩ :: ts) fault := by
    intro hsame
    obtain rfl := Except.error.inj ((hsame ts rfl).symm.trans h)
    exact ⟨[⟨.symbol .minus, pos⟩], ts, rfl, @ParseFault.Told.dangling [] ts pos, hsame,
      fun _ => ⟨_, hfills⟩⟩
  cases ts with
  | nil =>
    refine hdangling fun ts' hts' => ?_
    rw [List.head?_eq_none_iff.1 hts']
    rfl
  | cons u ts =>
    simp only [literal] at h
    split at h
    · cases h
    · rename_i hnumber
      cases (ofNumber?_eq_error hnumber).1
    · rename_i hnumber
      refine hdangling fun ts' hts' => ?_
      obtain ⟨more, rfl⟩ := List.head?_eq_some_iff.1 hts'
      simp only [literal, hnumber]

theorem stuck_literal {ts : List Token} {fault : ParseFault} (h : literal ts = .error fault) :
    literal.Stuck anything ts fault := by
  have hhere : ∀ {ts fault}, fault.Told [] ts → (∀ ts', ts'.head? = ts.head? →
      literal ts' = .error fault) → literal.Stuck anything ts fault :=
    fun htold hsame => ⟨[], _, rfl, htold, hsame, fun _ => ⟨_, fills_literal⟩⟩
  have hreject : ∀ {t ts fault}, (∀ ts', literal (t :: ts') =
      .error (.unexpected "literal value" [t])) → literal (t :: ts) = .error fault →
      literal.Stuck anything (t :: ts) fault := by
    intro t ts fault hall h
    obtain rfl := Except.error.inj ((hall ts).symm.trans h)
    have htold : (ParseFault.unexpected "literal value" (t :: ts)).Told [] (t :: ts) :=
      .unexpected _
    refine hhere htold fun ts' hts' => ?_
    obtain ⟨more, rfl⟩ := List.head?_eq_some_iff.1 hts'
    exact hall more
  cases ts with
  | nil =>
    cases h
    refine hhere (.unexpected _) fun ts' hts' => ?_
    rw [List.head?_eq_none_iff.1 hts']
    rfl
  | cons t ts =>
    obtain ⟨kind, pos⟩ := t
    cases kind with
    | keyword k =>
      cases k with
      | true_ => cases h
      | false_ => cases h
      | _ => exact hreject (fun _ => rfl) h
    | symbol s =>
      cases s with
      | minus => exact stuck_literal_minus h
      | _ => exact hreject (fun _ => rfl) h
    | name text => exact hreject (fun _ => rfl) h
    | device slot => exact hreject (fun _ => rfl) h
    | integer n =>
      simp only [literal] at h
      split at h
      · cases h
      · rename_i hnumber
        cases h
        obtain ⟨-, m, hm, rfl⟩ := ofNumber?_eq_error hnumber
        cases hm
        refine hhere .tooLarge fun ts' hts' => ?_
        obtain ⟨more, rfl⟩ := List.head?_eq_some_iff.1 hts'
        simp only [literal, hnumber]
      · rename_i hnumber
        simp only [Literal.ofNumber?, Bool.false_eq_true, if_false] at hnumber
        split at hnumber <;> cases hnumber
    | float x => cases h

theorem promptFor_literal : PromptFor literal anything [.keyword .true_] where
  reads := by
    intro ts a rest h
    obtain ⟨pos, value⟩ := a
    obtain ⟨used, rfl, hused⟩ := reads_literal.1 h
    exact ⟨used, rfl, fun rest' _ => reads_literal.2 ⟨used, rfl, hused⟩⟩
  fails := stuck_literal
  fills := fills_literal

theorem promptFor_deviceProperty :
    PromptFor deviceProperty anything [.name "x", .symbol .dot, .name "x"] :=
  (promptFor_take writable_name fun _ => rfl).andThen fun _ =>
    (promptFor_symbol .dot).andThen fun _ => (promptFor_name _).andThen fun _ =>
      promptFor_pure trivial _

/-- What may follow a statement. -/
def afterStatement (next : Option TokenKind) : Prop := next ≠ some (.keyword .else_)

theorem prompt_nameSlotRest (pos : Position) : Prompt (nameSlotRest pos) anything := by
  have hdevice : Writable (.device .housing) := ⟨_, .device .housing⟩
  exact ((promptFor_take hdevice fun _ => rfl).andThen fun _ =>
    (promptFor_keyword .as_).andThen fun _ => (promptFor_name _).andThen fun _ =>
      (promptFor_symbol .semicolon).andThen fun _ => promptFor_pure trivial _).toPrompt

theorem prompt_constRest (pos : Position) : Prompt (constRest pos) anything :=
  ((promptFor_name _).andThen fun _ => (promptFor_symbol .assign).andThen fun _ =>
    promptFor_literal.andThen fun _ => (promptFor_symbol .semicolon).andThen fun _ =>
      promptFor_pure trivial _).toPrompt

theorem afterExpression_symbol {s : Symbol} (h : BinaryOp.ofSymbol? s = none) :
    afterExpression (some (.symbol s)) := by
  intro kind hkind
  cases hkind
  exact h

/-- An expression and a semicolon. -/
theorem promptFor_value {f : Expr → Stmt} :
    PromptFor (expression >>= fun value => symbol .semicolon >>= fun _ => Pure.pure (f value))
      anything [.keyword .true_, .symbol .semicolon] :=
  promptFor_expression.bind
    (fun _ => (promptFor_symbol .semicolon).andThen fun _ => promptFor_pure trivial _)
    fun _ => begins_symbol (afterExpression_symbol rfl)

theorem prompt_defineRest (pos : Position) : Prompt (defineRest pos) anything :=
  ((promptFor_name _).andThen fun _ => (promptFor_symbol .assign).andThen fun _ =>
    promptFor_value).toPrompt

theorem prompt_readRest (pos : Position) : Prompt (readRest pos) anything :=
  (promptFor_deviceProperty.andThen fun _ => (promptFor_keyword .into).andThen fun _ =>
    (promptFor_name _).andThen fun _ => (promptFor_symbol .semicolon).andThen fun _ =>
      promptFor_pure trivial _).toPrompt

theorem prompt_writeRest (pos : Position) : Prompt (writeRest pos) anything :=
  (promptFor_expression.bind
    (fun _ => (promptFor_keyword .into).andThen fun _ => promptFor_deviceProperty.andThen fun _ =>
      (promptFor_symbol .semicolon).andThen fun _ => promptFor_pure trivial _)
    fun _ => begins_keyword (by simp [afterExpression, BinaryOp.ofToken?])).toPrompt

theorem promptFor_assignment (x : Name) : PromptFor (nameRest.assignment x) anything
    [.symbol .assign, .keyword .true_, .symbol .semicolon] :=
  (promptFor_symbol .assign).andThen fun _ => promptFor_value

theorem prompt_call (x : Name) : Prompt (nameRest.call x) anything := by
  have hargs := promptFor_parenthesized promptFor_expression (afterExpression_symbol rfl)
    (afterExpression_symbol rfl) begins_expression
  exact (hargs.andThen fun _ => (promptFor_symbol .semicolon).andThen fun _ =>
    promptFor_pure trivial _).toPrompt

theorem prompt_nameRest (x : Name) : Prompt (nameRest x) anything := by
  have hassignment := promptFor_assignment x
  have hfills : (nameRest x).Fills anything []
      [.symbol .assign, .keyword .true_, .symbol .semicolon] := by
    refine ⟨hassignment.fills.writable, trivial, fun us rest hus hrest => ?_⟩
    obtain ⟨st, hst⟩ := hassignment.fills.reads us rest hus hrest
    exact ⟨st, reads_nameRest.2 (.inl hst)⟩
  refine (PromptFor.choose (fun next => ?_) hfills).toPrompt
  by_cases hassign : next.any (·.kind = .symbol .assign) = true
  · refine .inl ⟨_, hassignment.toPrompt, fun ts hts => ?_, fun ts st rest hst _ => ?_⟩
    · subst hts
      exact if_pos hassign
    · exact reads_nameRest.2 (.inl hst)
  by_cases hlparen : next.any (·.kind = .symbol .lparen) = true
  · refine .inl ⟨_, prompt_call x, fun ts hts => ?_, fun ts st rest hst _ => ?_⟩
    · subst hts
      exact (if_neg hassign).trans (if_pos hlparen)
    · exact reads_nameRest.2 (.inr hst)
  · refine .inr ⟨.unexpected "'=' or '(' after a name" next.toList, fun ts hts => ?_⟩
    subst hts
    have heq : ParseFault.unexpected "'=' or '(' after a name" ts.head?.toList =
        .unexpected "'=' or '(' after a name" ts := by cases ts <;> rfl
    rw [heq]
    exact ⟨(if_neg hassign).trans (if_neg hlparen), .unexpected _⟩

/-! ### Blocks -/

/-- A reader of statements that fails as soon as it can. What it reads never starts with `else`. -/
structure PromptStatements (item : Token → Reader Stmt) : Prop where
  each : ∀ {stop : TokenKind → Bool}, stop (.keyword .yield) = false → ∀ t,
    Prompt (item t) afterStatement ∨ Rejected stop item afterStatement t
  begins : ∀ t ts st rest, (item t).Reads ts st rest → afterStatement (some t.kind)

section Blocks

variable {item : Token → Reader Stmt}

theorem PromptStatements.many {stop : TokenKind → Bool} (h : PromptStatements item)
    (hyield : stop (.keyword .yield) = false) :
    PromptFor (α := List Stmt) (many stop item) (afterMany stop afterStatement) [] :=
  promptFor_many (fun t _ => h.each hyield t) (fun t ts st rest _ => h.begins t ts st rest)
    (by simp [afterStatement])

theorem PromptStatements.blockRest (h : PromptStatements item) :
    PromptFor (blockRest item) anything [.symbol .rbrace] :=
  (h.many (by decide)).bind
    (fun _ => (promptFor_symbol .rbrace).andThen fun _ => promptFor_pure trivial _)
    fun _ => begins_symbol ⟨by simp, by simp [afterStatement]⟩

theorem PromptStatements.block (h : PromptStatements item) :
    PromptFor (block item) anything [.symbol .lbrace, .symbol .rbrace] :=
  (promptFor_expect (writable_symbol .lbrace)).andThen fun _ => h.blockRest.andThen fun _ =>
    promptFor_pure trivial _

theorem PromptStatements.functionRest (h : PromptStatements item) (pos : Position) :
    Prompt (functionRest item pos) anything := by
  have hparams := promptFor_parenthesized (promptFor_name "parameter name") trivial trivial
    fun ts x rest hx _ => by simp [reads_name.1 hx, front]
  exact ((promptFor_name _).andThen fun _ => hparams.andThen fun _ => h.block.andThen fun _ =>
    promptFor_pure trivial _).toPrompt

theorem PromptStatements.loopRest (h : PromptStatements item) (pos : Position) :
    Prompt (loopRest item pos) anything :=
  (h.block.andThen fun _ => promptFor_pure trivial _).toPrompt

theorem PromptStatements.ifRest (h : PromptStatements item) (pos : Position) :
    Prompt (ifRest item pos) afterStatement := by
  have hends : afterStatement none := by simp [afterStatement]
  refine ((promptFor_symbol .lparen).andThen fun _ => promptFor_expression.bind
    (fun _ => (promptFor_symbol .rparen).andThen fun _ => h.block.andThen fun _ =>
      .orElse (writable_keyword .else_) (h.block.andThen fun _ => promptFor_pure hends _)
        (promptFor_pure hends _) ?_)
    fun _ => begins_symbol (afterExpression_symbol rfl)).toPrompt
  intro ts st rest hst hrest
  rwa [(reads_pure.1 hst).2]

end Blocks

/-- The first token of a statement decides how to read it, or it is none. -/
theorem promptStatements_succ {d : Nat} (ih : PromptStatements (statement d)) (t : Token) :
    Prompt (statement (d + 1) t) afterStatement ∨
      ∀ ts, statement (d + 1) t ts = .error (.unexpected "statement" [t]) := by
  have hany : ∀ {p : Reader Stmt}, Prompt p anything → Prompt p afterStatement :=
    fun hp => hp.mono (fun _ _ => trivial) (by simp [afterStatement])
  obtain ⟨kind, pos⟩ := t
  cases kind with
  | keyword k =>
    cases k with
    | def_ => exact .inl (hany (prompt_nameSlotRest pos))
    | const => exact .inl (hany (prompt_constRest pos))
    | let_ => exact .inl (hany (prompt_defineRest pos))
    | fn => exact .inl (hany (ih.functionRest pos))
    | loop => exact .inl (hany (ih.loopRest pos))
    | if_ => exact .inl (ih.ifRest pos)
    | read => exact .inl (hany (prompt_readRest pos))
    | write => exact .inl (hany (prompt_writeRest pos))
    | yield => exact .inl (hany ((promptFor_symbol .semicolon).andThen fun _ =>
        promptFor_pure trivial _).toPrompt)
    | _ => exact .inr fun _ => rfl
  | symbol s =>
    cases s with
    | lbrace => exact .inl (hany (ih.blockRest.andThen fun _ => promptFor_pure trivial _).toPrompt)
    | _ => exact .inr fun _ => rfl
  | name text => exact .inl (hany (prompt_nameRest ⟨text, pos⟩))
  | _ => exact .inr fun _ => rfl

theorem begins_statement {d : Nat} {t : Token} {ts rest : List Token} {st : Stmt}
    (h : (statement d t).Reads ts st rest) : afterStatement (some t.kind) := by
  obtain ⟨used, heq, hst, -⟩ := (reads_statement d t ts st rest).1 h
  obtain ⟨t', us, rfl, -, ht'⟩ := hst.head
  obtain ⟨rfl, -⟩ := List.cons.inj heq
  exact fun h => ht' (Option.some.inj h)

theorem promptStatements (d : Nat) : PromptStatements (statement d) := by
  induction d with
  | zero =>
    refine ⟨fun _ t => .inr ⟨⟨.nestingTooDeep, t.pos⟩, fun ts => ⟨rfl, .tooDeep t⟩, ?_⟩,
      fun _ _ _ _ => begins_statement⟩
    exact fun h => absurd rfl h
  | succ d ih =>
    refine ⟨fun {stop} hyield t => ?_, fun _ _ _ _ => begins_statement⟩
    refine (promptStatements_succ ih t).imp_right fun hall => ?_
    have htold : ∀ ts, (ParseFault.unexpected "statement" (t :: ts)).Told [] (t :: ts) :=
      fun _ => .unexpected _
    refine ⟨_, fun ts => ⟨hall ts, htold ts⟩, fun _ => ⟨.keyword .yield, [.symbol .semicolon],
      hyield, writable_keyword .yield, fun pos => ?_⟩⟩
    -- another statement that may stand here
    have hyield : PromptFor (statement (d + 1) ⟨.keyword .yield, pos⟩) anything
        [.symbol .semicolon] :=
      (promptFor_symbol .semicolon).andThen fun _ => promptFor_pure trivial _
    exact ⟨hyield.fills.writable, by simp [afterStatement],
      fun us rest hus _ => hyield.fills.reads us rest hus trivial⟩

end Reader

/-! ## Texts -/

namespace Lexer

open Position

/-- A lexeme that cannot be read on cannot be read on either if the text ends apart from it. -/
theorem Maximal.apart {kind : TokenKind} {text before rest rest' : List Char}
    (h : Maximal kind text (before ++ rest)) (hapart : Apart rest') :
    Maximal kind text (before ++ rest') := by
  have hstops : ∀ {p : Char → Bool} (cs : List Char), (∀ c, isSpace c = true → p c = false) →
      Stops p (cs ++ rest) → Stops p (cs ++ rest') := by
    intro p cs hp hcs
    cases cs with
    | nil => exact hapart.stops hp
    | cons c cs => simpa using hcs
  have hname : Stops isNameChar (before ++ rest) → Stops isNameChar (before ++ rest') :=
    hstops before fun _ => isNameChar_of_isSpace
  cases kind with
  | symbol s =>
    refine ⟨fun hs => hstops before (fun c hc => ?_) (h.1 hs),
      fun hs => hstops before (fun c hc => ?_) (h.2 hs)⟩
    · simpa using (ne_of_isSpace hc).1
    · simpa using (ne_of_isSpace hc).2.2
  | integer n =>
    refine ⟨hname h.1, fun hdigits more hmore => ?_⟩
    cases before with
    | nil =>
      obtain rfl : rest' = '.' :: more := hmore
      exact absurd rfl (ne_of_isSpace (hapart '.' rfl)).2.1
    | cons c before =>
      obtain ⟨rfl, rfl⟩ := List.cons.inj hmore
      refine hstops before (fun c hc => ?_) (h.2 hdigits _ rfl)
      rcases isSpace_iff.1 hc with rfl | rfl | rfl | rfl <;> decide
  | _ => exact hname h

/-- A filler goes up to a character. -/
theorem Filler.of_head?_eq {f rest rest' : List Char} (h : Filler f rest)
    (hrest : rest'.head? = rest.head?) : Filler f rest' := by
  induction h with
  | nil => exact .nil
  | space hc _ ih => exact .space hc (ih hrest)
  | line hbody hend _ ih =>
    refine .line hbody ?_ (ih hrest)
    rwa [head?_append_eq _ hrest]
  | block hbody _ ih => exact .block hbody (ih hrest)

/-- A text may end after any of its lexemes and go on in another way, apart from it. -/
theorem tiles_append {cs cs' : List Char} {tiles tiles₁ tiles₂ tiles' : List Tile}
    (h : Tiles cs tiles) (htiles : tiles = tiles₁ ++ tiles₂) (hcs' : Tiles cs' tiles')
    (hapart : Apart cs') :
    Tiles (textOf tiles₁ ++ cs') (tiles₁ ++ tiles') := by
  induction tiles₁ generalizing cs tiles with
  | nil => exact hcs'
  | cons t tiles₁ ih =>
    subst htiles
    cases h with
    | @cons f cs l _ hf hstarts hspells htiles =>
      obtain ⟨last, hcs, -⟩ := tiles_iff.1 htiles
      have hcs : cs = textOf tiles₁ ++ (textOf tiles₂ ++ last) := by simp [hcs, textOf]
      obtain ⟨hspelling, hmaximal⟩ := spells_iff.1 ⟨hspells, hstarts⟩
      rw [hcs] at hmaximal
      obtain ⟨hspells', hstarts'⟩ := spells_iff.2 ⟨hspelling, hmaximal.apart hapart⟩
      have hf' : Filler f (l.text ++ (textOf tiles₁ ++ cs')) := by
        obtain ⟨c, text, htext⟩ := hspells.exists_cons
        refine hf.of_head?_eq ?_
        rw [htext]
        rfl
      have hcons := Tiles.cons hf' hstarts' hspells' (ih htiles rfl)
      simpa using hcons

theorem tokensFrom_append (pos : Position) (tiles₁ tiles₂ : List Tile) :
    tokensFrom pos (tiles₁ ++ tiles₂) =
      tokensFrom pos tiles₁ ++ tokensFrom (pos.after (textOf tiles₁)) tiles₂ := by
  induction tiles₁ generalizing pos with
  | nil => rfl
  | cons t tiles₁ ih => simp [tokensFrom, ih, Position.after_append]

theorem take_tokensFrom (pos : Position) (tiles : List Tile) (k : Nat) :
    (tokensFrom pos tiles).take k = tokensFrom pos (tiles.take k) := by
  induction k generalizing pos tiles with
  | zero => simp [tokensFrom]
  | succ k ih =>
    cases tiles with
    | nil => rfl
    | cons t tiles => simp [tokensFrom, ih]

/-- Lexemes for tokens that can be written down, with a space after each of them. -/
theorem exists_lexemes {kinds : List TokenKind} (h : ∀ kind ∈ kinds, Writable kind) :
    ∃ xs : List (Lexeme × List Char), xs.map (·.1.kind) = kinds ∧
      (∀ x ∈ xs, x.2 ≠ [] ∧ Blank x.2) ∧ ∀ x ∈ xs, ∃ rest, Spells x.1.kind x.1.text rest := by
  induction kinds with
  | nil => exact ⟨[], rfl, List.forall_mem_nil _, List.forall_mem_nil _⟩
  | cons kind kinds ih =>
    obtain ⟨⟨text, hspelling⟩, hkinds⟩ := List.forall_mem_cons.1 h
    obtain ⟨xs, rfl, hblank, hspells⟩ := ih hkinds
    have hmaximal : Maximal kind text [] := by
      cases kind with
      | symbol s => exact ⟨fun _ => stops_nil, fun _ => stops_nil⟩
      | integer n => exact ⟨stops_nil, fun _ more hmore => by cases hmore⟩
      | _ => exact stops_nil
    refine ⟨(⟨kind, text⟩, [' ']) :: xs, rfl, List.forall_mem_cons.2 ⟨?_, hblank⟩,
      List.forall_mem_cons.2 ⟨⟨[], (spells_iff.2 ⟨hspelling, hmaximal⟩).1⟩, hspells⟩⟩
    exact ⟨by simp, by simp [Blank, isSpace]⟩

/-- The first tokens of a text are the first ones of a text that goes on with other tokens. -/
theorem exists_scan_append {source : List Char} {ts : TokenList} (h : scan source = .ok ts)
    (k : Nat) {kinds : List TokenKind} (hkinds : ∀ kind ∈ kinds, Writable kind) :
    ∃ source' us finish, scan source' = .ok ⟨ts.tokens.take k ++ us, finish⟩ ∧
      us.map (·.kind) = kinds := by
  obtain ⟨tiles, htiles, rfl⟩ := scan_eq_ok_iff.1 h
  obtain ⟨xs, rfl, hblank, hspells⟩ := exists_lexemes hkinds
  have hspace : Blank [' '] := by simp [Blank, isSpace]
  have happend := tiles_append htiles (List.take_append_drop k tiles).symm
    (tiles_spaced hspace hblank hspells) (apart_spaced (by simp) hspace)
  have hscan := scan_eq_ok_iff.2 ⟨_, happend, rfl⟩
  rw [tokensFrom_append, ← take_tokensFrom] at hscan
  refine ⟨_, _, _, hscan, ?_⟩
  rw [kinds_tokensFrom, lexemes_spacedTiles, List.map_map]
  rfl

end Lexer

/-! ## Programs -/

/-- Tokens with the one that marks the end. -/
def Token.withEnd (ts : List Token) : List (Option Token) := ts.map some ++ [none]

/-- Where a token of a text stands. The one that marks the end stands where the text ends. -/
def TokenList.place (ts : TokenList) (k : Nat) : Position :=
  (ts.tokens[k]?.map (·.pos)).getD ts.finish

/-- A fault is told of the next token, if it is not that of a minus. -/
theorem ParseFault.Told.pos_eq {fault : ParseFault} {before rest : List Token}
    (h : fault.Told before rest) :
    (fault.cause ≠ .danglingMinus ∧ fault.pos = rest.head?.map (·.pos)) ∨
      ∃ earlier pos, before = earlier ++ [⟨.symbol .minus, pos⟩] ∧
        fault = ⟨.danglingMinus, some pos⟩ := by
  cases h with
  | dangling pos => exact .inr ⟨_, pos, rfl, rfl⟩
  | _ => exact .inl ⟨by simp [ParseFault.unexpected, ParseFault.missing], rfl⟩

namespace Program

open Reader

/-- The fault is found at the token `k`, the first one that cannot stand where it does. -/
structure FirstFault (limits : Limits) (ts : TokenList) (fault : ParseFault) (k : Nat) : Prop where
  le : k ≤ ts.tokens.length
  told : fault.Told (ts.tokens.take k) (ts.tokens.drop k)
  /-- The tokens before are the first ones of a text that is a program. -/
  completable : ∃ source' ts' p, Lexer.scan source' = .ok ts' ∧
    ts.tokens.take k <+: ts'.tokens ∧ parse ts'.tokens limits = .ok p
  /-- With the token they are the first ones of no program. -/
  impossible : ∀ ts' p, (Token.withEnd ts.tokens).take (k + 1) <+: Token.withEnd ts' →
    parse ts' limits ≠ .ok p
  location : fault.cause ≠ .danglingMinus → fault.pos.getD ts.finish = ts.place k
  /-- Only a minus without a number is told of at the minus. -/
  minus : fault.cause = .danglingMinus → 0 < k ∧
    ∃ pos, ts.tokens[k - 1]? = some ⟨.symbol .minus, pos⟩ ∧ fault.pos.getD ts.finish = pos

theorem parse_eq_error_iff {limits : Limits} {ts : List Token} {fault : ParseFault} :
    parse ts limits = .error fault ↔
      many (fun _ => false) (statement limits.nesting) ts = .error fault := by
  unfold parse
  split <;> simp_all

/-- A list that agrees with another one up to some token, the mark of the end included. -/
theorem exists_of_withEnd_prefix {used rest ts' : List Token}
    (h : (Token.withEnd (used ++ rest)).take (used.length + 1) <+: Token.withEnd ts') :
    ∃ rest', ts' = used ++ rest' ∧ rest'.head? = rest.head? := by
  induction used generalizing ts' with
  | nil =>
    refine ⟨ts', rfl, ?_⟩
    obtain ⟨more, hmore⟩ := h
    cases rest <;> cases ts' <;> simp_all [Token.withEnd]
  | cons t used ih =>
    cases ts' with
    | nil =>
      obtain ⟨more, hmore⟩ := h
      simp [Token.withEnd] at hmore
    | cons t' ts' =>
      obtain ⟨ht, hused⟩ := List.cons_prefix_cons.1 h
      obtain ⟨rest', rfl, hhead⟩ := ih hused
      exact ⟨rest', by rw [Option.some.inj ht, List.cons_append], hhead⟩

/-- Tokens that are no program are told of at the first one that cannot stand where it does. -/
theorem exists_firstFault {limits : Limits} {source : List Char} {ts : TokenList}
    {fault : ParseFault}
    (hscan : Lexer.scan source = .ok ts) (hparse : parse ts.tokens limits = .error fault)
    (hlimit : fault.cause ≠ .nestingTooDeep) : ∃ k, FirstFault limits ts fault k := by
  have hprompt : PromptFor (α := List Stmt) (many (fun _ => false) (statement limits.nesting))
      (afterMany (fun _ => false) afterStatement) [] := (promptStatements limits.nesting).many rfl
  obtain ⟨used, rest, hts, htold, hsame, hfills⟩ := hprompt.fails (parse_eq_error_iff.1 hparse)
  have htake : ts.tokens.take used.length = used := by rw [hts, List.take_left]
  have hdrop : ts.tokens.drop used.length = rest := by rw [hts, List.drop_left]
  have hplace : ts.place used.length = (rest.head?.map (·.pos)).getD ts.finish := by
    rw [TokenList.place, hts, List.getElem?_append_right (Nat.le_refl _), Nat.sub_self,
      List.head?_eq_getElem?]
  refine ⟨used.length, by simp [hts], by rwa [htake, hdrop], ?_, fun ts' p hprefix => ?_,
    fun hcause => ?_, fun hcause => ?_⟩
  · obtain ⟨kinds, hkinds⟩ := hfills hlimit
    obtain ⟨source', us, finish, hscan', hus⟩ :=
      Lexer.exists_scan_append hscan used.length hkinds.writable
    obtain ⟨sts, hsts⟩ := hkinds.reads us [] hus hkinds.ends
    rw [List.append_nil] at hsts
    obtain ⟨hle, hsts⟩ := hsts
    rw [htake] at hscan' ⊢
    refine ⟨source', _, ⟨sts⟩, hscan', List.prefix_append used us, ?_⟩
    simp only [parse, hsts]
  · rw [hts] at hprefix
    obtain ⟨rest', rfl, hrest'⟩ := exists_of_withEnd_prefix hprefix
    have herror := parse_eq_error_iff.2 (hsame rest' hrest')
    rw [herror]
    exact fun h => by cases h
  · rcases htold.pos_eq with ⟨-, hpos⟩ | ⟨_, _, -, rfl⟩
    · rw [hpos, hplace]
    · exact absurd rfl hcause
  · rcases htold.pos_eq with ⟨hne, -⟩ | ⟨earlier, pos, rfl, rfl⟩
    · exact absurd hcause hne
    · exact ⟨by simp, pos, by simp [hts], rfl⟩

/-- The tokens of `x = -;`. -/
def loneMinus : TokenList where
  tokens := [⟨.name "x", ⟨1, 1⟩⟩, ⟨.symbol .assign, ⟨1, 3⟩⟩, ⟨.symbol .minus, ⟨1, 5⟩⟩,
    ⟨.symbol .semicolon, ⟨1, 6⟩⟩]
  finish := ⟨1, 7⟩

theorem scan_loneMinus : Lexer.scan ['x', ' ', '=', ' ', '-', ';'] = .ok loneMinus := by
  have hname : Lexer.Spells (.name "x") ['x'] [' ', '=', ' ', '-', ';'] := by
    have hkind : Lexer.wordKind (String.ofList ['x']) = .name "x" := by decide
    rw [← hkind]
    exact .word (by decide) (List.forall_mem_nil _) (by simp; decide)
  have hassign : Lexer.Spells (.symbol .assign) ['='] [' ', '-', ';'] := .symbol (by simp)
  have hminus : Lexer.Spells (.symbol .minus) ['-'] [';'] := .symbol (by simp)
  have hsemicolon : Lexer.Spells (.symbol .semicolon) [';'] [] := .symbol (by simp)
  have hspace {rest : List Char} : Lexer.Filler [' '] rest := .space (by decide) .nil
  have hlast := Lexer.Tiles.cons (l := ⟨.symbol .semicolon, [';']⟩) .nil
    (Lexer.starts_of_solid (by decide) (by decide)) hsemicolon (.last .nil)
  have hvalue := Lexer.Tiles.cons (l := ⟨.symbol .minus, ['-']⟩) hspace
    (Lexer.starts_of_solid (by decide) (by decide)) hminus hlast
  have hrest := Lexer.Tiles.cons (l := ⟨.symbol .assign, ['=']⟩) hspace
    (Lexer.starts_of_solid (by decide) (by decide)) hassign hvalue
  exact Lexer.scan_eq_ok_iff.2 ⟨_, Lexer.Tiles.cons (l := ⟨.name "x", ['x']⟩) .nil
    (Lexer.starts_of_solid (by decide) (by decide)) hname hrest, rfl⟩

theorem exists_firstFault_loneMinus :
    Lexer.scan ['x', ' ', '=', ' ', '-', ';'] = .ok loneMinus ∧
      parse loneMinus.tokens = .error ⟨.danglingMinus, some ⟨1, 5⟩⟩ ∧
      ∃ k, FirstFault {} loneMinus ⟨.danglingMinus, some ⟨1, 5⟩⟩ k := by
  have hparse : parse loneMinus.tokens = .error ⟨.danglingMinus, some ⟨1, 5⟩⟩ := by cbv
  exact ⟨scan_loneMinus, hparse, exists_firstFault scan_loneMinus hparse (by simp)⟩

end Program

end Chipwright
