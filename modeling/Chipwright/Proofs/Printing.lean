import Chipwright.Program.Printer
import Chipwright.Proofs.Lexing.Leading
import Chipwright.Proofs.Parsing.FirstFault
import Chipwright.Proofs.Parsing.Words

/-!
# Printed expressions are read back

A listing shows an expression with every operation in parentheses. Between two lexemes of the text
stands a space, or one of them is a parenthesis, or the first one is a sign or `!`, so the text is
cut where it was put together; and an operation in parentheses is an operand wherever it stands. So
the text is read as the expression that was printed. This leaves out fractions, whose text may be in
a form that no token has.

## Main definitions

* `Expr.unplaced`: an expression without its positions
* `Expr.Spellable`: names and whole numbers that have a spelling
* `Expr.Prints`: lexemes that make up the text of an expression

## Main statements

* `Expr.spellable_of_read`: what is read is spellable
* `Expr.exists_prints`: the text of a spellable expression
* `Expr.ofSource_text`: printed expressions are read back
-/
namespace Chipwright

namespace Expr

/-- The expression with all positions forgotten. -/
def unplaced : Expr → Expr
  | literal _ value => .literal .first value
  | name x => .name ⟨x.text, .first⟩
  | not _ operand => .not .first operand.unplaced
  | binary op left right => .binary op left.unplaced right.unplaced

/-- Names are spelt as names, whole numbers are in range, and there are no fractions. -/
def Spellable : Expr → Prop
  | literal _ (.int n) => -2 ^ 63 ≤ n ∧ n ≤ 2 ^ 63 - 1
  | literal _ (.bool _) => True
  | literal _ (.float _) => False
  | name x => Lexer.Spelling (.name x.text) x.text.toList
  | not _ operand => operand.Spellable
  | binary _ left right => left.Spellable ∧ right.Spellable

/-! ## What is read -/

section Reading

open Grammar Lexer

theorem spellable_of_isLiteral {ts : List Token} {pos : Position} {x : Literal}
    (h : IsLiteral ts pos x) (hts : ∀ t ∈ ts, ∃ text, Spelling t.kind text)
    (hx : ∀ y, x ≠ .float y) : (literal pos x).Spellable := by
  cases h with
  | true_ => trivial
  | false_ => trivial
  | integer bound =>
    simp only [Spellable]
    omega
  | @negative n _ pos' =>
    obtain ⟨text, hspelling⟩ := hts ⟨.integer n, pos'⟩ (by simp)
    have hle := hspelling.integer_le
    simp only [Spellable]
    omega
  | float => exact absurd rfl (hx _)
  | negativeFloat => exact absurd rfl (hx _)

theorem spellable_of_expression {l : Grammar.Level} {ts : List Token} {e : Expr} {d : Nat}
    (h : Expression l ts e) (hts : ∀ t ∈ ts, ∃ text, Spelling t.kind text)
    (he : ∀ n ∈ e.nodes d, ∀ x, n.kind ≠ .literal (.float x)) : e.Spellable := by
  induction h generalizing d with
  | next _ ih => exact ih hts he
  | chain _ _ _ _ ihleft ihright =>
    simp only [nodes, List.forall_mem_cons, List.forall_mem_append] at hts he
    exact ⟨ihleft hts.1 he.2.1, ihright hts.2.2 he.2.2⟩
  | compare _ _ _ _ ihleft ihright =>
    simp only [nodes, List.forall_mem_cons, List.forall_mem_append] at hts he
    exact ⟨ihleft hts.1 he.2.1, ihright hts.2.2 he.2.2⟩
  | not _ ih =>
    simp only [nodes, List.forall_mem_cons] at hts he
    exact ih hts.2 he.2
  | literal hx =>
    refine spellable_of_isLiteral hx hts fun y hy => ?_
    exact he _ (List.mem_singleton_self _) y (congrArg NodeKind.literal hy)
  | name =>
    obtain ⟨text, hspelling⟩ := hts _ (List.mem_singleton_self _)
    rw [Spellable]
    cases hspelling with
    | name hc hcs hk hslot =>
      rw [String.toList_ofList]
      exact .name hc hcs hk hslot
  | parenthesized _ ih =>
    simp only [List.cons_append, List.forall_mem_cons, List.forall_mem_append] at hts
    exact ih hts.2.1 he

/-- An expression that is read from tokens of a text is spellable, if it has no fractions. -/
theorem spellable_of_read {source : List Char} {ts : TokenList} {us rest : List Token} {e : Expr}
    (hscan : scan source = .ok ts) (hus : us <:+ ts.tokens)
    (hread : Operator.read [] .operand us = .ok (e, rest))
    (he : ∀ n ∈ e.nodes 0, ∀ x, n.kind ≠ .literal (.float x)) : e.Spellable := by
  obtain ⟨used, rfl, hused, -⟩ := Operator.isExpr_of_read hread
  refine spellable_of_expression hused (fun t ht => ?_) he
  exact exists_spelling_of_scan hscan (hus.subset (List.mem_append_left rest ht))

end Reading

/-! ## What is printed -/

section Texts

variable {pos : Position} {e left right : Expr} {op : BinaryOp}

@[simp] theorem toList_text_not :
    (not pos e).text.toList = '(' :: '!' :: (e.text.toList ++ [')']) := by
  simp [text, toString]

@[simp] theorem toList_text_binary : (binary op left right).text.toList =
    '(' :: (left.text.toList ++ ' ' :: (op.text.toList ++ ' ' ::
      (right.text.toList ++ [')']))) := by
  simp [text, toString]

end Texts

end Expr

namespace Lexer

/-- Where a printed expression may end. -/
def Ends (rest : List Char) : Prop := ∀ c ∈ rest.head?, c = ' ' ∨ c = ')' ∨ c = ';'

theorem Ends.stops {rest : List Char} (h : Ends rest) {p : Char → Bool} (hspace : p ' ' = false)
    (hparen : p ')' = false) (hsemicolon : p ';' = false) : Stops p rest := by
  intro c hc
  rcases h c hc with rfl | rfl | rfl
  · exact hspace
  · exact hparen
  · exact hsemicolon

/-- Every lexeme may stand before the end of a printed expression. -/
theorem Ends.maximal {rest : List Char} (h : Ends rest) (kind : TokenKind) (text : List Char) :
    Maximal kind text rest := by
  have hname : Stops isNameChar rest := h.stops (by decide) (by decide) (by decide)
  cases kind with
  | symbol s => exact ⟨fun _ => h.stops rfl rfl rfl, fun _ => h.stops rfl rfl rfl⟩
  | integer n =>
    refine ⟨hname, fun _ more hmore => ?_⟩
    subst hmore
    have hpoint := h '.' rfl
    simp at hpoint
  | _ => exact hname

/-- Words and numbers start with a character of a name. -/
theorem Spelling.isNameChar {kind : TokenKind} {text : List Char} (h : Spelling kind text)
    (hkind : ∀ s, kind ≠ .symbol s) {c : Char} (hc : c ∈ text.head?) :
    Lexer.isNameChar c = true := by
  have hdigits : ∀ digits more : List Char, digits ≠ [] → (∀ d ∈ digits, d.isDigit = true) →
      c ∈ (digits ++ more).head? → Lexer.isNameChar c = true := by
    intro digits more hne hdigits hc
    obtain ⟨d, digits, rfl⟩ := List.exists_cons_of_ne_nil hne
    cases hc
    exact isNameChar_of_isDigit (hdigits c (List.mem_cons_self ..))
  cases h with
  | keyword k =>
    obtain ⟨d, ds, hk, hd, -⟩ := keyword_chars k
    rw [hk] at hc
    cases hc
    exact isNameChar_of_isNameStart hd
  | device slot =>
    obtain ⟨d, ds, hslot, hd, -⟩ := device_chars slot
    rw [hslot] at hc
    cases hc
    exact isNameChar_of_isNameStart hd
  | name hd _ _ _ =>
    cases hc
    exact isNameChar_of_isNameStart hd
  | marked =>
    cases hc
    decide
  | decimal hne hall => exact hdigits _ [] hne hall (by simpa using hc)
  | fraction hne hall => exact hdigits _ _ hne hall hc
  | symbol s => exact absurd rfl (hkind s)

theorem leads_lexeme {kind : TokenKind} {text f rest : List Char} {tiles : List Tile}
    (hf : ∀ rest, Filler f rest) (hspelling : Spelling kind text)
    (hmaximal : Maximal kind text (textOf tiles ++ rest)) (h : Leads tiles rest) :
    Leads (⟨f, ⟨kind, text⟩⟩ :: tiles) rest := by
  obtain ⟨hspells, hstarts⟩ := spells_iff.2 ⟨hspelling, hmaximal⟩
  exact .cons (hf _) hstarts hspells h

theorem spelling_toDigits {n : Nat} (h : n ≤ 2 ^ 63) :
    Spelling (.integer n) (Nat.toDigits 10 n) := by
  have hlength : (Nat.toDigits 10 n).length ≤ 20 :=
    (Nat.length_toDigits_le_iff (by decide) (by decide)).2 (by omega)
  have hnumeral := (numeral_toDigits (by decide : 1 < 10) (by decide) n).1
  have hspelling : Spelling (.integer (numeral 10 (Nat.toDigits 10 n))) (Nat.toDigits 10 n) :=
    .decimal Nat.toDigits_ne_nil
      (fun c hc => Nat.isDigit_of_mem_toDigits (by decide) (by decide) hc)
      (Nat.le_trans hlength (by decide)) (by rwa [hnumeral])
  rwa [hnumeral] at hspelling

end Lexer

/-! ## Operations in parentheses -/

namespace Grammar

variable {ts us : List Token} {e left right : Expr}

/-- A negation in parentheses is an operand. -/
theorem term_not (h : Expression .term ts e) (pos pos' pos'' : Position) :
    Expression .term (⟨.symbol .lparen, pos⟩ :: ⟨.symbol .not, pos'⟩ ::
      (ts ++ [⟨.symbol .rparen, pos''⟩])) (.not pos' e) := by
  have hnot : Phrase 6 (⟨.symbol .not, pos'⟩ :: ts) (.not pos' e) :=
    .not ((Phrase.term h).mono (by decide))
  exact .parenthesized (hnot.expression (by decide))

/-- An operation in parentheses is an operand, whatever the operator is. -/
theorem term_binary {op : BinaryOp} {s : Symbol} (hs : s.text = op.text)
    (hleft : Expression .term ts left) (hright : Expression .term us right)
    (pos pos' pos'' : Position) :
    Expression .term (⟨.symbol .lparen, pos⟩ :: (ts ++ ⟨.symbol s, pos'⟩ ::
      (us ++ [⟨.symbol .rparen, pos''⟩]))) (.binary op left right) := by
  have hrank : Phrase.leftRank op ≤ 7 ∧ op.precedence + 1 ≤ 7 := by cases op <;> decide
  have hbinary : Phrase op.precedence (ts ++ ⟨.symbol s, pos'⟩ :: us) (.binary op left right) :=
    .binary hs ((Phrase.term hleft).mono hrank.1) ((Phrase.term hright).mono hrank.2)
  have hsplit : ts ++ ⟨.symbol s, pos'⟩ :: (us ++ [⟨.symbol .rparen, pos''⟩]) =
      (ts ++ ⟨.symbol s, pos'⟩ :: us) ++ [⟨.symbol .rparen, pos''⟩] := by simp
  rw [hsplit]
  exact .parenthesized (hbinary.expression op.one_le_precedence)

end Grammar

/-! ## Printed expressions -/

namespace Expr

open Grammar Lexer

/-- Lexemes that make up the text of an expression after a filler. Wherever the text ends they are
read, and they are an operand. -/
structure Prints (f : List Char) (e : Expr) (tiles : List Tile) : Prop where
  text : textOf tiles = f ++ e.text.toList
  head : ∀ c ∈ e.text.toList.head?, c ≠ '='
  leads : ∀ rest, Ends rest → Leads tiles rest
  reads : ∀ pos, ∃ e', Expression .term (tokensFrom pos tiles) e' ∧ e'.unplaced = e.unplaced

variable {f : List Char} {pos : Position} {e left right : Expr} {tiles tiles' : List Tile}

/-- An operand that is one lexeme. -/
theorem prints_lexeme {kind : TokenKind} {text : List Char} (hf : ∀ rest, Filler f rest)
    (hspelling : Spelling kind text) (hkind : ∀ s, kind ≠ .symbol s) (htext : e.text.toList = text)
    (hreads : ∀ pos, ∃ e', Expression .term [⟨kind, pos⟩] e' ∧ e'.unplaced = e.unplaced) :
    Prints f e [⟨f, ⟨kind, text⟩⟩] where
  text := by simp [htext]
  head c hc := by
    rw [htext] at hc
    rintro rfl
    exact absurd (hspelling.isNameChar hkind hc) (by decide)
  leads rest hrest := leads_lexeme hf hspelling (hrest.maximal _ _) .nil
  reads pos := hreads _

theorem exists_prints_int (hf : ∀ rest, Filler f rest) {n : Int} (hleast : -2 ^ 63 ≤ n)
    (hgreatest : n ≤ 2 ^ 63 - 1) : ∃ tiles, Prints f (.literal pos (.int n)) tiles := by
  have htext : ∀ m : Nat, (toString m).toList = Nat.toDigits 10 m := fun m => by simp
  cases n with
  | ofNat n =>
    have hn : n ≤ 2 ^ 63 - 1 := by
      rw [Int.ofNat_eq_natCast] at hgreatest
      omega
    exact ⟨_, prints_lexeme hf (spelling_toDigits (n := n) (by omega)) (by simp) (htext n)
      fun pos => ⟨_, .literal (.integer hn), rfl⟩⟩
  | negSucc n =>
    have hspelling : Spelling (.integer (n + 1)) (Nat.toDigits 10 (n + 1)) :=
      spelling_toDigits (by omega)
    have hminus : (Expr.text (.literal pos (.int (.negSucc n)))).toList =
        '-' :: Nat.toDigits 10 (n + 1) := by
      change ("-" ++ toString (n + 1)).toList = _
      rw [String.toList_append, htext]
      rfl
    refine ⟨[⟨f, ⟨.symbol .minus, ['-']⟩⟩, ⟨[], ⟨.integer (n + 1), Nat.toDigits 10 (n + 1)⟩⟩],
      by simp [hminus], by simp [hminus], fun rest hrest => ?_,
      fun pos => ⟨_, .literal .negative, rfl⟩⟩
    exact leads_lexeme hf (.symbol .minus) ⟨by simp, by simp⟩
      (leads_lexeme (fun _ => .nil) hspelling (hrest.maximal _ _) .nil)

theorem exists_prints_bool (hf : ∀ rest, Filler f rest) (b : Bool) :
    ∃ tiles, Prints f (.literal pos (.bool b)) tiles := by
  cases b with
  | true =>
    exact ⟨_, prints_lexeme hf (.keyword .true_) (by simp) rfl
      fun pos => ⟨_, .literal .true_, rfl⟩⟩
  | false =>
    exact ⟨_, prints_lexeme hf (.keyword .false_) (by simp) rfl
      fun pos => ⟨_, .literal .false_, rfl⟩⟩

theorem Prints.not (hf : ∀ rest, Filler f rest) (h : Prints [] e tiles) (pos : Position) :
    Prints f (.not pos e) (⟨f, ⟨.symbol .lparen, ['(']⟩⟩ :: ⟨[], ⟨.symbol .not, ['!']⟩⟩ ::
      (tiles ++ [⟨[], ⟨.symbol .rparen, [')']⟩⟩])) where
  text := by simp [h.text]
  head := by simp
  leads rest hrest := by
    have hclose : Leads [⟨[], ⟨.symbol .rparen, [')']⟩⟩] rest :=
      leads_lexeme (fun _ => .nil) (.symbol .rparen) ⟨by simp, by simp⟩ .nil
    have hinner := (h.leads (')' :: rest) (by simp [Ends])).append hclose
    have hstops : Lexer.Stops (· = '=') (e.text.toList ++ ')' :: rest) := by
      intro c hc
      rw [List.head?_append, Option.mem_def, Option.or_eq_some_iff] at hc
      rcases hc with hc | ⟨-, hc⟩
      · simpa using h.head c hc
      · cases hc
        rfl
    refine leads_lexeme hf (.symbol .lparen) ⟨by simp, by simp⟩
      (leads_lexeme (fun _ => .nil) (.symbol .not) ⟨fun _ => ?_, by simp⟩ hinner)
    simpa [h.text] using hstops
  reads pos := by
    obtain ⟨e', he', hsame⟩ := h.reads ((pos.after (f ++ ['('])).after ['!'])
    simp only [tokensFrom, tokensFrom_append]
    exact ⟨_, term_not he' _ _ _, congrArg (Expr.not .first) hsame⟩

theorem exists_symbol (op : BinaryOp) : ∃ s : Symbol, s.text = op.text := by
  cases op
  case add => exact ⟨.plus, rfl⟩
  case sub => exact ⟨.minus, rfl⟩
  case mul => exact ⟨.star, rfl⟩
  case div => exact ⟨.slash, rfl⟩
  case eq => exact ⟨.eq, rfl⟩
  case ne => exact ⟨.ne, rfl⟩
  case lt => exact ⟨.lt, rfl⟩
  case gt => exact ⟨.gt, rfl⟩
  case le => exact ⟨.le, rfl⟩
  case ge => exact ⟨.ge, rfl⟩
  case and => exact ⟨.and, rfl⟩
  case or => exact ⟨.or, rfl⟩

theorem Prints.binary (hf : ∀ rest, Filler f rest) (hleft : Prints [] left tiles)
    (hright : Prints [' '] right tiles') {op : BinaryOp} {s : Symbol} (hs : s.text = op.text) :
    Prints f (.binary op left right) (⟨f, ⟨.symbol .lparen, ['(']⟩⟩ ::
      (tiles ++ ⟨[' '], ⟨.symbol s, s.text.toList⟩⟩ ::
        (tiles' ++ [⟨[], ⟨.symbol .rparen, [')']⟩⟩]))) where
  text := by simp [hleft.text, hright.text, hs]
  head := by simp
  leads rest hrest := by
    have hspace : ∀ rest, Filler [' '] rest := fun _ => .space (by decide) .nil
    have hclose : Leads [⟨[], ⟨.symbol .rparen, [')']⟩⟩] rest :=
      leads_lexeme (fun _ => .nil) (.symbol .rparen) ⟨by simp, by simp⟩ .nil
    have hsecond := (hright.leads (')' :: rest) (by simp [Ends])).append hclose
    -- the operator stands between spaces
    have hop := leads_lexeme hspace (.symbol s)
      (Ends.maximal (by simp [Ends, hright.text]) _ _) hsecond
    have hfirst := (hleft.leads _ (by simp [Ends])).append hop
    exact leads_lexeme hf (.symbol .lparen) ⟨by simp, by simp⟩ hfirst
  reads pos := by
    obtain ⟨l, hl, hsame⟩ := hleft.reads (pos.after (f ++ ['(']))
    obtain ⟨r, hr, hsame'⟩ := hright.reads
      (((pos.after (f ++ ['('])).after (textOf tiles)).after ([' '] ++ s.text.toList))
    simp only [tokensFrom, tokensFrom_append]
    exact ⟨_, term_binary hs hl hr _ _ _, congrArg₂ (Expr.binary op) hsame hsame'⟩

/-- The text of a spellable expression is made up of lexemes that are read as an operand. -/
theorem exists_prints (h : e.Spellable) (hf : ∀ rest, Filler f rest) :
    ∃ tiles, Prints f e tiles := by
  induction e generalizing f with
  | literal pos x =>
    cases x with
    | int n => exact exists_prints_int hf h.1 h.2
    | bool b => exact exists_prints_bool hf b
    | float y => exact h.elim
  | name x =>
    exact ⟨_, prints_lexeme hf h (by simp) rfl fun pos => ⟨_, .name, rfl⟩⟩
  | not pos e ih =>
    obtain ⟨tiles, htiles⟩ := ih h fun _ => .nil
    exact ⟨_, htiles.not hf pos⟩
  | binary op left right ihleft ihright =>
    obtain ⟨tiles, htiles⟩ := ihleft h.1 fun _ => .nil
    obtain ⟨tiles', htiles'⟩ := ihright (f := [' ']) h.2 fun _ => .space (by decide) .nil
    obtain ⟨s, hs⟩ := exists_symbol op
    exact ⟨_, htiles.binary hf htiles' hs⟩

/-! ## Definitions -/

theorem spelling_v : Spelling (.name "v") ['v'] := by
  have hkind : wordKind (String.ofList ['v']) = .name "v" := by decide
  rw [← hkind]
  exact spelling_word (by decide) (List.forall_mem_nil _)

/-- The lexemes of a definition with a printed expression. -/
def definitionTiles (tiles : List Tile) : List Tile :=
  ⟨[], ⟨.keyword .let_, ['l', 'e', 't']⟩⟩ :: ⟨[' '], ⟨.name "v", ['v']⟩⟩ ::
    ⟨[' '], ⟨.symbol .assign, ['=']⟩⟩ :: (tiles ++ [⟨[], ⟨.symbol .semicolon, [';']⟩⟩])

theorem Prints.tiles_definition (h : Prints [' '] e tiles) :
    Tiles ("let v = " ++ e.text ++ ";").toList (definitionTiles tiles) := by
  have hspace : ∀ rest, Filler [' '] rest := fun _ => .space (by decide) .nil
  have hend : Leads [⟨[], ⟨.symbol .semicolon, [';']⟩⟩] [] :=
    leads_lexeme (fun _ => .nil) (.symbol .semicolon) ⟨by simp, by simp⟩ .nil
  have hvalue := (h.leads [';'] (by simp [Ends])).append hend
  -- a space follows each of the first lexemes
  have hassign := leads_lexeme hspace (.symbol .assign)
    (Ends.maximal (by simp [Ends, h.text]) _ _) hvalue
  have hname := leads_lexeme hspace spelling_v (Ends.maximal (by simp [Ends]) _ _) hassign
  have hlet := leads_lexeme (fun _ => .nil) (.keyword .let_) (Ends.maximal (by simp [Ends]) _ _)
    hname
  have htiles := tiles_of_leads hlet (.last .nil)
  simpa [definitionTiles, h.text, Keyword.text, Symbol.text] using htiles

theorem Prints.derives_definition (h : Prints [' '] e tiles) :
    ∃ pos pos' e', e'.unplaced = e.unplaced ∧
      Derives (tokensFrom .first (definitionTiles tiles)) ⟨[.define pos ⟨"v", pos'⟩ e']⟩ := by
  obtain ⟨e', he', hsame⟩ := h.reads (.after .first ['l', 'e', 't', ' ', 'v', ' ', '='])
  have hstatement : Statement (tokensFrom .first (definitionTiles tiles))
      (.define .first ⟨"v", .after .first ['l', 'e', 't', ' ']⟩ e') := by
    simp only [definitionTiles, tokensFrom, tokensFrom_append]
    exact .simple (.definition ((Phrase.term he').expression (by decide)))
  have hstatements := Statements.cons hstatement .nil
  rw [List.append_nil] at hstatements
  exact ⟨_, _, e', hsame, hstatements⟩

/-- A printed expression is read back. Every expression that is read somewhere in a text and has no
fractions, when it is printed and the text is read as the value of a definition, is this value, up
to positions. -/
theorem ofSource_text {source : List Char} {ts : TokenList} {us rest : List Token} {e : Expr}
    (hscan : scan source = .ok ts) (hus : us <:+ ts.tokens)
    (hread : Operator.read [] .operand us = .ok (e, rest))
    (he : ∀ n ∈ e.nodes 0, ∀ x, n.kind ≠ .literal (.float x)) (file : String) :
    ∃ pos pos' e', e'.unplaced = e.unplaced ∧
      Program.ofSource file ("let v = " ++ e.text ++ ";").toList =
        .ok ⟨[.define pos ⟨"v", pos'⟩ e']⟩ := by
  have hspellable := spellable_of_read hscan hus hread he
  obtain ⟨tiles, h⟩ := exists_prints (f := [' ']) hspellable fun _ => .space (by decide) .nil
  obtain ⟨pos, pos', e', hsame, hderives⟩ := h.derives_definition
  refine ⟨pos, pos', e', hsame, Program.ofSource_eq_ok.2 ⟨_,
    scan_eq_ok_iff.2 ⟨_, h.tiles_definition, rfl⟩, Program.parse_eq_ok_iff.2 ⟨hderives, ?_⟩⟩⟩
  simp [Stmt.depthAll, Stmt.depth]

/-- A comparison with the least whole number after a minus, and with another comparison. -/
def comparison : Expr :=
  .binary .lt
    (.binary .sub (.name ⟨"a", ⟨1, 1⟩⟩) (.literal ⟨1, 5⟩ (.int (-9223372036854775808))))
    (.not ⟨1, 28⟩ (.binary .eq (.name ⟨"b", ⟨1, 30⟩⟩) (.literal ⟨1, 35⟩ (.bool true))))

theorem ofSource_text_comparison :
    comparison.text = "((a - -9223372036854775808) < (!(b == true)))" ∧
      ∃ pos pos' e', e'.unplaced = comparison.unplaced ∧
        Program.ofSource "printed" ("let v = " ++ comparison.text ++ ";").toList =
          .ok ⟨[.define pos ⟨"v", pos'⟩ e']⟩ := by
  have hsome : ((scan "a - -9223372036854775808 < !(b == true)".toList).toOption.bind fun ts =>
      if (Operator.read [] .operand ts.tokens).toOption = some (comparison, []) then some ts
      else none).isSome := by
    decide +kernel
  obtain ⟨x, hx⟩ := Option.isSome_iff_exists.1 hsome
  obtain ⟨ts, hscan, hx⟩ := Option.bind_eq_some_iff.1 hx
  split at hx
  case isFalse => cases hx
  case isTrue hread =>
    rw [toOption_eq_some] at hscan hread
    exact ⟨by decide +kernel, ofSource_text hscan (List.suffix_refl _) hread
      (by simp [comparison, nodes, Name.node]) "printed"⟩

end Expr

end Chipwright
