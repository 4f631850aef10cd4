import Chipwright.Proofs.Parsing.Reader

/-!
# Reading programs

The parser accepts exactly the token lists that the grammar derives, and gives the tree of
the derivation, as long as statements do not stand deeper inside one another than the limit.

## Main definitions

* `Stmt.depth`: how many statements stand inside one another
* `Reader.Refines p q`: the reader `q` gives what `p` gives unless `p` meets the limit

## Main statements

* `Reader.reads_statement`: the reader of statements against the grammar, depth for depth
* `Program.parse_iff_derives`: the parser against the grammar; no token list has two trees
-/
namespace Chipwright

mutual

/-- How many statements stand inside one another, the outermost one counted. -/
def Stmt.depth : Stmt → Nat
  | .block _ body => Stmt.depthAll body + 1
  | .function _ _ _ _ body => Stmt.depthAll body + 1
  | .loop _ _ body => Stmt.depthAll body + 1
  | .ifThen _ _ _ thenBody => Stmt.depthAll thenBody + 1
  | .ifElse _ _ _ thenBody _ elseBody =>
    max (Stmt.depthAll thenBody) (Stmt.depthAll elseBody) + 1
  | .nameSlot .. | .const .. | .define .. | .assign .. | .call .. | .read .. | .write ..
  | .yield .. => 1

def Stmt.depthAll : List Stmt → Nat
  | [] => 0
  | st :: sts => max st.depth (Stmt.depthAll sts)

end

theorem Stmt.depth_pos (st : Stmt) : 0 < st.depth := by
  cases st <;> simp [Stmt.depth]

theorem Stmt.depthAll_le_iff {d : Nat} {sts : List Stmt} :
    Stmt.depthAll sts ≤ d ↔ ∀ st ∈ sts, st.depth ≤ d := by
  induction sts with
  | nil => simp [Stmt.depthAll]
  | cons st sts ih => simp only [Stmt.depthAll, List.forall_mem_cons, ← ih]; omega

namespace Grammar

/-- No expression starts with a closing parenthesis. -/
theorem Expression.head_ne_rparen {l : Level} {ts : List Token} {e : Expr}
    (h : Expression l ts e) : ∃ t us, ts = t :: us ∧ t.kind ≠ .symbol .rparen := by
  induction h with
  | next _ ih => exact ih
  | chain _ _ _ _ ih _ | compare _ _ _ _ ih _ =>
    obtain ⟨t, us, rfl, ht⟩ := ih
    exact ⟨t, _, rfl, ht⟩
  | literal hx => cases hx <;> exact ⟨_, _, rfl, by simp⟩
  | _ => exact ⟨_, _, rfl, by simp⟩

/-- No statement starts with what ends a block or with `else`. -/
theorem Statement.head {ts : List Token} {st : Stmt} (h : Statement ts st) :
    ∃ t us, ts = t :: us ∧ t.kind ≠ .symbol .rbrace ∧ t.kind ≠ .keyword .else_ := by
  cases h with
  | simple h => cases h <;> exact ⟨_, _, rfl, by simp, by simp⟩
  | block hbody => cases hbody; exact ⟨_, _, rfl, by simp, by simp⟩
  | _ => exact ⟨_, _, rfl, by simp, by simp⟩

/-- What may stand after a statement: an `if` without an `else` is not followed by one. -/
def Follows : Stmt → List Token → Prop
  | .ifThen .., rest => ∀ t ∈ rest.head?, t.kind ≠ .keyword .else_
  | _, _ => True

end Grammar

namespace Reader

open Grammar Operator

variable {α : Type} {ts rest : List Token}

/-! ### Lists in parentheses -/

/-- A reader of list items: what it reads is the phrase of the grammar, up to tokens that do
not continue it, among them those of the list. -/
structure Itemizes (item : Reader α) (phrase : List Token → α → Prop)
    (stops : List Token → Prop) : Prop where
  reads : ∀ {ts a rest}, item.Reads ts a rest ↔
    ∃ used, ts = used ++ rest ∧ phrase used a ∧ stops rest
  comma : ∀ {pos rest}, stops (⟨.symbol .comma, pos⟩ :: rest)
  rparen : ∀ {pos rest}, stops (⟨.symbol .rparen, pos⟩ :: rest)
  head : ∀ {used a}, phrase used a → ∃ t us, used = t :: us ∧ t.kind ≠ .symbol .rparen

section Lists

variable {item : Reader α} {phrase : List Token → α → Prop} {stops : List Token → Prop}
  {as : List α}

theorem Itemizes.stops_commaTail (h : Itemizes item phrase stops) {pos : Position}
    (htail : CommaTail phrase ts as) : stops (ts ++ ⟨.symbol .rparen, pos⟩ :: rest) := by
  cases htail with
  | nil => exact h.rparen
  | cons => exact h.comma

theorem Itemizes.reads_commaTail (h : Itemizes item phrase stops) {pos : Position} :
    Reads (commaTail item) ts as (⟨.symbol .rparen, pos⟩ :: rest) ↔
      ∃ used, ts = used ++ ⟨.symbol .rparen, pos⟩ :: rest ∧ CommaTail phrase used as := by
  induction as generalizing ts with
  | nil =>
    rw [reads_commaTail_iff]
    constructor
    · rintro (⟨-, rfl, -⟩ | ⟨_, _, _, _, _, hnil, -⟩)
      · exact ⟨[], rfl, .nil⟩
      · cases hnil
    · rintro ⟨used, rfl, ⟨⟩⟩
      exact .inl ⟨rfl, rfl, by simp⟩
  | cons a as ih =>
    rw [reads_commaTail_iff]
    constructor
    · rintro (⟨hnil, -⟩ | ⟨pos', ts', a', as', mid, hcons, rfl, hitem, htail⟩)
      · cases hnil
      · obtain ⟨rfl, rfl⟩ : a = a' ∧ as = as' := by simpa using hcons
        obtain ⟨used₁, rfl, hphrase, -⟩ := h.reads.1 hitem
        obtain ⟨used₂, rfl, hused₂⟩ := ih.1 htail
        exact ⟨⟨.symbol .comma, pos'⟩ :: used₁ ++ used₂, by simp, .cons hphrase hused₂⟩
    · rintro ⟨used, rfl, hused⟩
      cases hused with
      | @cons pos' used₁ used₂ _ _ hphrase htail =>
        exact .inr ⟨pos', _, a, as, _, rfl, rfl,
          h.reads.2 ⟨used₁, by simp, hphrase, h.stops_commaTail htail⟩, ih.2 ⟨used₂, rfl, htail⟩⟩

theorem Itemizes.reads_parenthesized (h : Itemizes item phrase stops) :
    (parenthesized item).Reads ts as rest ↔ ∃ used pos pos',
      ts = ⟨.symbol .lparen, pos⟩ :: used ++ ⟨.symbol .rparen, pos'⟩ :: rest ∧
        CommaList phrase used as := by
  simp only [parenthesized, reads_bind, reads_symbol, reads_accept]
  constructor
  · rintro ⟨_, mid, ⟨pos, rfl⟩, found, mid', hfound, hlist⟩
    cases found with
    | true =>
      obtain ⟨pos', rfl⟩ := hfound
      obtain ⟨rfl, rfl⟩ : [] = as ∧ mid' = rest := by simpa using hlist
      exact ⟨[], pos, pos', rfl, .nil⟩
    | false =>
      obtain ⟨rfl, -⟩ := hfound
      simp only [Bool.false_eq_true, if_false] at hlist
      obtain ⟨a, mid₁, hitem, hlist⟩ := reads_bind.1 hlist
      obtain ⟨as', mid₂, htail, hlist⟩ := reads_bind.1 hlist
      simp only [reads_bind, reads_symbol, reads_pure] at hlist
      obtain ⟨_, _, ⟨pos', rfl⟩, rfl, rfl⟩ := hlist
      obtain ⟨used₁, rfl, hphrase, -⟩ := h.reads.1 hitem
      obtain ⟨used₂, rfl, hused₂⟩ := h.reads_commaTail.1 htail
      exact ⟨used₁ ++ used₂, pos, pos', by simp, .cons hphrase hused₂⟩
  · rintro ⟨used, pos, pos', rfl, hused⟩
    refine ⟨(), _, ⟨pos, rfl⟩, ?_⟩
    cases hused with
    | nil => exact ⟨true, _, ⟨pos', rfl⟩, by simp⟩
    | @cons used₁ used₂ a as hphrase htail =>
      obtain ⟨t, us, rfl, ht⟩ := h.head hphrase
      refine ⟨false, _, ⟨rfl, by simpa using ht⟩, ?_⟩
      simp only [Bool.false_eq_true, if_false]
      refine reads_bind.2 ⟨a, _, h.reads.2 ⟨t :: us, List.append_assoc _ _ _, hphrase,
        h.stops_commaTail htail⟩, ?_⟩
      refine reads_bind.2 ⟨as, _, h.reads_commaTail.2 ⟨used₂, rfl, htail⟩, ?_⟩
      simp

end Lists

theorem itemizes_expression : Itemizes expression IsExpr Stops where
  reads := reads_expression
  comma := by simp [Stops, BinaryOp.ofToken?, BinaryOp.ofSymbol?]
  rparen := by simp [Stops, BinaryOp.ofToken?, BinaryOp.ofSymbol?]
  head := Expression.head_ne_rparen

theorem itemizes_name {expected : String} :
    Itemizes (name expected) IsName (fun _ => True) where
  reads {ts x rest} := by
    rw [reads_name]
    constructor
    · rintro rfl
      exact ⟨_, rfl, .mk, trivial⟩
    · rintro ⟨used, rfl, ⟨⟩, -⟩
      rfl
  comma := trivial
  rparen := trivial
  head := by rintro _ _ ⟨⟩; exact ⟨_, _, rfl, by simp⟩

/-! ### Statements up to a bound on their depth -/

/-- A reader of statements that reads those for which `bounded` holds. -/
def ReadsStatements (item : Token → Reader Stmt) (bounded : Stmt → Prop) : Prop :=
  ∀ t ts st rest, (item t).Reads ts st rest ↔
    ∃ used, t :: ts = used ++ rest ∧ Statement used st ∧ bounded st ∧ Follows st rest

section Blocks

variable {item : Token → Reader Stmt} {bounded : Stmt → Prop} {sts : List Stmt}
  {stop : TokenKind → Bool}

/-- After a statement stands another one or the end, so never an `else` that it lacks. -/
theorem follows_of_ends {us : List Token} {st : Stmt} (hus : Statements us sts)
    (hrest : Ends stop rest) (hstop : ∀ kind, stop kind = true → kind = .symbol .rbrace) :
    Follows st (us ++ rest) := by
  have hhead : ∀ t ∈ (us ++ rest).head?, t.kind ≠ .keyword .else_ := by
    cases hus with
    | nil =>
      intro t ht hkind
      cases (hstop _ (hrest t ht)).symm.trans hkind
    | cons hst _ =>
      obtain ⟨t, us, rfl, -, ht⟩ := hst.head
      simpa using ht
  cases st <;> first | exact hhead | trivial

theorem reads_many (hitem : ReadsStatements item bounded)
    (hstop : ∀ kind, stop kind = true → kind = .symbol .rbrace) :
    Reads (many stop item) ts sts rest ↔ ∃ used, ts = used ++ rest ∧ Statements used sts ∧
      (∀ st ∈ sts, bounded st) ∧ Ends stop rest := by
  induction sts generalizing ts with
  | nil =>
    rw [reads_many_iff]
    constructor
    · rintro (⟨-, rfl, hends⟩ | ⟨_, _, _, _, _, hnil, -⟩)
      · exact ⟨[], rfl, .nil, by simp, hends⟩
      · cases hnil
    · rintro ⟨used, rfl, ⟨⟩, -, hends⟩
      exact .inl ⟨rfl, rfl, hends⟩
  | cons st sts ih =>
    rw [reads_many_iff]
    constructor
    · rintro (⟨hnil, -⟩ | ⟨t, ts', st', sts', mid, hcons, rfl, -, hread, hrest⟩)
      · cases hnil
      · obtain ⟨rfl, rfl⟩ : st = st' ∧ sts = sts' := by simpa using hcons
        obtain ⟨used₁, heq, hst, hbounded, -⟩ := (hitem _ _ _ _).1 hread
        obtain ⟨used₂, rfl, hsts, hall, hends⟩ := ih.1 hrest
        exact ⟨used₁ ++ used₂, by simp [heq], .cons hst hsts, by simpa using ⟨hbounded, hall⟩,
          hends⟩
    · rintro ⟨used, rfl, hused, hall, hends⟩
      cases hused with
      | @cons used₁ used₂ _ _ hst hsts =>
        obtain ⟨t, us, rfl, hbrace, -⟩ := hst.head
        obtain ⟨hbounded, hall⟩ : bounded st ∧ ∀ st ∈ sts, bounded st := by simpa using hall
        have hread : (item t).Reads (us ++ (used₂ ++ rest)) st (used₂ ++ rest) :=
          (hitem _ _ _ _).2 ⟨t :: us, rfl, hst, hbounded, follows_of_ends hsts hends hstop⟩
        exact .inr ⟨t, _, st, sts, _, rfl, by simp, by
          simpa using fun h => hbrace (hstop _ h), hread, ih.2 ⟨used₂, rfl, hsts, hall, hends⟩⟩

theorem reads_blockRest (hitem : ReadsStatements item bounded) :
    (blockRest item).Reads ts sts rest ↔ ∃ used pos,
      ts = used ++ ⟨.symbol .rbrace, pos⟩ :: rest ∧ Statements used sts ∧
        ∀ st ∈ sts, bounded st := by
  unfold blockRest
  constructor
  · intro h
    obtain ⟨body, mid, hmany, h⟩ := reads_bind.1 h
    simp only [reads_bind, reads_symbol, reads_pure] at h
    obtain ⟨_, _, ⟨pos, rfl⟩, rfl, rfl⟩ := h
    obtain ⟨used, rfl, hused, hall, -⟩ := (reads_many hitem (by simp)).1 hmany
    exact ⟨used, pos, rfl, hused, hall⟩
  · rintro ⟨used, pos, rfl, hused, hall⟩
    refine reads_bind.2 ⟨sts, _, (reads_many hitem (by simp)).2
      ⟨used, rfl, hused, hall, by simp [Ends]⟩, by simp⟩

theorem reads_block (hitem : ReadsStatements item bounded) {pos : Position} :
    (block item).Reads ts (pos, sts) rest ↔ ∃ used, ts = used ++ rest ∧ Block used pos sts ∧
      ∀ st ∈ sts, bounded st := by
  simp only [block, reads_bind, reads_expect, reads_blockRest hitem, reads_pure, Prod.mk.injEq]
  constructor
  · rintro ⟨_, _, rfl, _, _, ⟨used, pos', rfl, hused, hall⟩, ⟨rfl, rfl⟩, rfl⟩
    exact ⟨_ :: used ++ [⟨.symbol .rbrace, pos'⟩], by simp, .mk hused, hall⟩
  · rintro ⟨_, rfl, hblock, hall⟩
    cases hblock with
    | @mk _ used _ pos' hused =>
      exact ⟨pos, used ++ ⟨.symbol .rbrace, pos'⟩ :: rest, by simp, sts, rest,
        ⟨used, pos', rfl, hused, hall⟩, ⟨rfl, rfl⟩, rfl⟩

end Blocks

/-! ### Statements -/

section Rests

variable {pos : Position} {st : Stmt}

/-- After its first token, the rest of a simple statement is read. -/
def ReadsSimple (p : Reader Stmt) (t : Token) : Prop :=
  ∀ ts st rest, p.Reads ts st rest ↔ ∃ used, ts = used ++ rest ∧ Simple (t :: used) st

theorem readsSimple_nameSlotRest : ReadsSimple (nameSlotRest pos) ⟨.keyword .def_, pos⟩ := by
  intro ts st rest
  simp only [nameSlotRest, reads_bind, reads_take, reads_keyword, reads_symbol, reads_name,
    reads_pure]
  constructor
  · rintro ⟨⟨slotPos, slot⟩, _, ⟨⟨kind, _⟩, rfl, hpick⟩, _, _, ⟨pos₁, rfl⟩, x, _, rfl, _, _,
      ⟨pos₂, rfl⟩, rfl, rfl⟩
    cases kind with
    | device slot' =>
      obtain ⟨rfl, rfl⟩ := by simpa using hpick
      exact ⟨[_, _, _, _], rfl, .nameSlot⟩
    | _ => simp at hpick
  · rintro ⟨_, rfl, ⟨⟩⟩
    exact ⟨(_, _), _, ⟨_, rfl, rfl⟩, (), _, ⟨_, rfl⟩, ⟨_, _⟩, _, rfl, (), _, ⟨_, rfl⟩, rfl, rfl⟩

theorem readsSimple_constRest : ReadsSimple (constRest pos) ⟨.keyword .const, pos⟩ := by
  intro ts st rest
  simp only [constRest, reads_bind, reads_symbol, reads_name, reads_pure, Prod.exists,
    reads_literal]
  constructor
  · rintro ⟨x, _, rfl, _, _, ⟨pos₁, rfl⟩, valuePos, value, _, ⟨used, rfl, hused⟩, _, _,
      ⟨pos₂, rfl⟩, rfl, rfl⟩
    exact ⟨_, by simp, @Simple.constant pos _ x.pos pos₁ used _ _ pos₂ hused⟩
  · rintro ⟨_, rfl, h⟩
    cases h with
    | @constant _ x xPos _ used _ _ pos₂ hused =>
      exact ⟨⟨x, xPos⟩, _, rfl, (), _, ⟨_, rfl⟩, _, _, _, ⟨used, by simp, hused⟩, (), _,
        ⟨pos₂, rfl⟩, rfl, rfl⟩

theorem stops_semicolon : Stops (⟨.symbol .semicolon, pos⟩ :: rest) := by
  simp [Stops, BinaryOp.ofToken?, BinaryOp.ofSymbol?]

theorem stops_into : Stops (⟨.keyword .into, pos⟩ :: rest) := by
  simp [Stops, BinaryOp.ofToken?]

theorem readsSimple_defineRest : ReadsSimple (defineRest pos) ⟨.keyword .let_, pos⟩ := by
  intro ts st rest
  simp only [defineRest, reads_bind, reads_symbol, reads_name, reads_pure, reads_expression]
  constructor
  · rintro ⟨x, _, rfl, _, _, ⟨pos₁, rfl⟩, value, _, ⟨used, rfl, hused, -⟩, _, _, ⟨pos₂, rfl⟩,
      rfl, rfl⟩
    exact ⟨_, by simp, @Simple.definition pos _ x.pos pos₁ used _ pos₂ hused⟩
  · rintro ⟨_, rfl, h⟩
    cases h with
    | @definition _ x xPos _ used _ pos₂ hused =>
      exact ⟨⟨x, xPos⟩, _, rfl, (), _, ⟨_, rfl⟩, _, _, ⟨used, by simp, hused, stops_semicolon⟩,
        (), _, ⟨pos₂, rfl⟩, rfl, rfl⟩

theorem readsSimple_readRest : ReadsSimple (readRest pos) ⟨.keyword .read, pos⟩ := by
  intro ts st rest
  simp only [readRest, reads_bind, reads_symbol, reads_keyword, reads_name, reads_pure,
    Prod.exists, reads_deviceProperty]
  constructor
  · rintro ⟨device, property, _, ⟨used, pos₁, pos₂, rfl, hused⟩, _, _, ⟨pos₃, rfl⟩, x, _, rfl,
      _, _, ⟨pos₄, rfl⟩, rfl, rfl⟩
    exact ⟨_, by simp, @Simple.read pos used _ pos₁ _ pos₂ pos₃ _ x.pos pos₄ hused⟩
  · rintro ⟨_, rfl, h⟩
    cases h with
    | @read _ used _ pos₁ _ pos₂ pos₃ x xPos pos₄ hused =>
      exact ⟨_, _, _, ⟨used, pos₁, pos₂, by simp, hused⟩, (), _, ⟨pos₃, rfl⟩, ⟨x, xPos⟩, _, rfl,
        (), _, ⟨pos₄, rfl⟩, rfl, rfl⟩

theorem readsSimple_writeRest : ReadsSimple (writeRest pos) ⟨.keyword .write, pos⟩ := by
  intro ts st rest
  simp only [writeRest, reads_bind, reads_symbol, reads_keyword, reads_pure, Prod.exists,
    reads_deviceProperty, reads_expression]
  constructor
  · rintro ⟨value, _, ⟨used, rfl, hused, -⟩, _, _, ⟨pos₁, rfl⟩, device, property, _,
      ⟨used', pos₂, pos₃, rfl, hused'⟩, _, _, ⟨pos₄, rfl⟩, rfl, rfl⟩
    exact ⟨_, by simp, @Simple.write pos used _ pos₁ used' _ pos₂ _ pos₃ pos₄ hused hused'⟩
  · rintro ⟨_, rfl, h⟩
    cases h with
    | @write _ used _ pos₁ used' _ pos₂ _ pos₃ pos₄ hused hused' =>
      exact ⟨_, _, ⟨used, by simp, hused, stops_into⟩, (), _, ⟨pos₁, rfl⟩, _, _, _,
        ⟨used', pos₂, pos₃, rfl, hused'⟩, (), _, ⟨pos₄, rfl⟩, rfl, rfl⟩

theorem readsSimple_yieldRest : ReadsSimple (symbol .semicolon >>= fun _ => Pure.pure (.yield pos))
    ⟨.keyword .yield, pos⟩ := by
  intro ts st rest
  simp only [reads_bind, reads_symbol, reads_pure]
  constructor
  · rintro ⟨_, _, ⟨pos₁, rfl⟩, rfl, rfl⟩
    exact ⟨[⟨_, pos₁⟩], rfl, .yield⟩
  · rintro ⟨_, rfl, ⟨⟩⟩
    exact ⟨(), _, ⟨_, rfl⟩, rfl, rfl⟩

theorem reads_assignment {x : Name} : (nameRest.assignment x).Reads ts st rest ↔
    ∃ pos₁ used value pos₂, ts = ⟨.symbol .assign, pos₁⟩ :: used ++
      ⟨.symbol .semicolon, pos₂⟩ :: rest ∧ IsExpr used value ∧ st = .assign x value := by
  simp only [nameRest.assignment, reads_bind, reads_symbol, reads_pure, reads_expression]
  constructor
  · rintro ⟨_, _, ⟨pos₁, rfl⟩, value, _, ⟨used, rfl, hused, -⟩, _, _, ⟨pos₂, rfl⟩, rfl, rfl⟩
    exact ⟨pos₁, used, value, pos₂, rfl, hused, rfl⟩
  · rintro ⟨pos₁, used, value, pos₂, rfl, hused, rfl⟩
    exact ⟨(), _, ⟨pos₁, rfl⟩, value, _, ⟨used, rfl, hused, stops_semicolon⟩, (), _, ⟨pos₂, rfl⟩,
      rfl, rfl⟩

theorem reads_call {x : Name} : (nameRest.call x).Reads ts st rest ↔
    ∃ pos₁ used args pos₂ pos₃, ts = ⟨.symbol .lparen, pos₁⟩ :: used ++
      ⟨.symbol .rparen, pos₂⟩ :: ⟨.symbol .semicolon, pos₃⟩ :: rest ∧
      CommaList IsExpr used args ∧ st = .call x args := by
  simp only [nameRest.call, reads_bind, reads_symbol, reads_pure,
    itemizes_expression.reads_parenthesized]
  constructor
  · rintro ⟨args, _, ⟨used, pos₁, pos₂, rfl, hused⟩, _, _, ⟨pos₃, rfl⟩, rfl, rfl⟩
    exact ⟨pos₁, used, args, pos₂, pos₃, rfl, hused, rfl⟩
  · rintro ⟨pos₁, used, args, pos₂, pos₃, rfl, hused, rfl⟩
    exact ⟨args, _, ⟨used, pos₁, pos₂, rfl, hused⟩, (), _, ⟨pos₃, rfl⟩, rfl, rfl⟩

/-- After a name, the next token decides between the two statements. -/
theorem reads_nameRest {x : Name} : (nameRest x).Reads ts st rest ↔
    (nameRest.assignment x).Reads ts st rest ∨ (nameRest.call x).Reads ts st rest := by
  constructor
  · rintro ⟨hle, h⟩
    unfold nameRest at h
    split at h
    · exact .inl ⟨hle, h⟩
    · split at h
      · exact .inr ⟨hle, h⟩
      · cases h
  · rintro (h | h)
    · obtain ⟨pos₁, used, value, pos₂, rfl, -⟩ := reads_assignment.1 h
      obtain ⟨hle, h⟩ := h
      exact ⟨hle, by rw [nameRest, if_pos (by simp [nameRest.startsWith]), h]⟩
    · obtain ⟨pos₁, used, args, pos₂, pos₃, rfl, -⟩ := reads_call.1 h
      obtain ⟨hle, h⟩ := h
      exact ⟨hle, by rw [nameRest, if_neg (by simp [nameRest.startsWith]),
        if_pos (by simp [nameRest.startsWith]), h]⟩

variable {item : Token → Reader Stmt} {bounded : Stmt → Prop}

theorem reads_functionRest (hitem : ReadsStatements item bounded) :
    (functionRest item pos).Reads ts st rest ↔
      ∃ x pos₁ used params pos₂ used' bodyPos body, ts = ⟨.name x.text, x.pos⟩ ::
        ⟨.symbol .lparen, pos₁⟩ :: used ++ ⟨.symbol .rparen, pos₂⟩ :: used' ++ rest ∧
        CommaList IsName used params ∧ Block used' bodyPos body ∧ (∀ st ∈ body, bounded st) ∧
        st = .function pos x params bodyPos body := by
  simp only [functionRest, reads_bind, reads_name, reads_pure, Prod.exists,
    itemizes_name.reads_parenthesized, reads_block hitem]
  constructor
  · rintro ⟨x, _, rfl, params, _, ⟨used, pos₁, pos₂, rfl, hused⟩, bodyPos, body, _,
      ⟨used', rfl, hbody, hall⟩, rfl, rfl⟩
    exact ⟨x, pos₁, used, params, pos₂, used', bodyPos, body, by simp, hused, hbody, hall, rfl⟩
  · rintro ⟨x, pos₁, used, params, pos₂, used', bodyPos, body, rfl, hused, hbody, hall, rfl⟩
    exact ⟨x, _, rfl, params, _, ⟨used, pos₁, pos₂, by simp, hused⟩, bodyPos, body, _,
      ⟨used', rfl, hbody, hall⟩, rfl, rfl⟩

theorem reads_loopRest (hitem : ReadsStatements item bounded) :
    (loopRest item pos).Reads ts st rest ↔ ∃ used bodyPos body, ts = used ++ rest ∧
      Block used bodyPos body ∧ (∀ st ∈ body, bounded st) ∧ st = .loop pos bodyPos body := by
  simp only [loopRest, reads_bind, reads_pure, Prod.exists, reads_block hitem]
  constructor
  · rintro ⟨bodyPos, body, _, ⟨used, rfl, hbody, hall⟩, rfl, rfl⟩
    exact ⟨used, bodyPos, body, rfl, hbody, hall, rfl⟩
  · rintro ⟨used, bodyPos, body, rfl, hbody, hall, rfl⟩
    exact ⟨bodyPos, body, _, ⟨used, rfl, hbody, hall⟩, rfl, rfl⟩

theorem reads_ifRest (hitem : ReadsStatements item bounded) :
    (ifRest item pos).Reads ts st rest ↔ ∃ pos₁ used condition pos₂ used' thenPos thenBody tail,
      ts = ⟨.symbol .lparen, pos₁⟩ :: used ++ ⟨.symbol .rparen, pos₂⟩ :: used' ++ tail ∧
        IsExpr used condition ∧ Block used' thenPos thenBody ∧ (∀ st ∈ thenBody, bounded st) ∧
        ((tail = rest ∧ (∀ t ∈ rest.head?, t.kind ≠ .keyword .else_) ∧
            st = .ifThen pos condition thenPos thenBody) ∨
          ∃ pos₃ used'' elsePos elseBody, tail = ⟨.keyword .else_, pos₃⟩ :: used'' ++ rest ∧
            Block used'' elsePos elseBody ∧ (∀ st ∈ elseBody, bounded st) ∧
            st = .ifElse pos condition thenPos thenBody elsePos elseBody) := by
  simp only [ifRest, reads_bind, reads_symbol, Prod.exists, reads_expression,
    reads_accept, reads_block hitem]
  constructor
  · rintro ⟨_, _, ⟨pos₁, rfl⟩, condition, _, ⟨used, rfl, hused, -⟩, _, _, ⟨pos₂, rfl⟩, thenPos,
      thenBody, tail, ⟨used', rfl, hthen, hall⟩, found, mid, hfound, hst⟩
    refine ⟨pos₁, used, condition, pos₂, used', thenPos, thenBody, tail, by simp, hused, hthen,
      hall, ?_⟩
    cases found with
    | true =>
      obtain ⟨pos₃, rfl⟩ := hfound
      simp only [if_true, reads_bind, reads_pure, Prod.exists, reads_block hitem] at hst
      obtain ⟨elsePos, elseBody, _, ⟨used'', rfl, helse, hall'⟩, rfl, rfl⟩ := hst
      exact .inr ⟨pos₃, used'', elsePos, elseBody, rfl, helse, hall', rfl⟩
    | false =>
      obtain ⟨rfl, hnone⟩ := hfound
      obtain ⟨rfl, rfl⟩ : Stmt.ifThen pos condition thenPos thenBody = st ∧ tail = rest := by
        simpa using hst
      exact .inl ⟨rfl, hnone, rfl⟩
  · rintro ⟨pos₁, used, condition, pos₂, used', thenPos, thenBody, tail, rfl, hused, hthen,
      hall, htail⟩
    have hstops : Stops (⟨.symbol .rparen, pos₂⟩ :: (used' ++ tail)) := itemizes_expression.rparen
    refine ⟨(), _, ⟨pos₁, rfl⟩, condition, _, ⟨used, by simp, hused, hstops⟩, (), _, ⟨pos₂, rfl⟩,
      thenPos, thenBody, tail, ⟨used', rfl, hthen, hall⟩, ?_⟩
    rcases htail with ⟨rfl, hnone, rfl⟩ | ⟨pos₃, used'', elsePos, elseBody, rfl, helse, hall', rfl⟩
    · exact ⟨false, tail, ⟨rfl, hnone⟩, by simp⟩
    · refine ⟨true, used'' ++ rest, ⟨pos₃, rfl⟩, ?_⟩
      simp only [if_true, reads_bind, reads_pure, Prod.exists, reads_block hitem]
      exact ⟨elsePos, elseBody, _, ⟨used'', rfl, helse, hall'⟩, rfl, rfl⟩

end Rests

theorem ReadsSimple.statement {p : Reader Stmt} {t : Token} {st : Stmt} {d : Nat}
    (hp : ReadsSimple p t) (h : p.Reads ts st rest) :
    ∃ used, t :: ts = used ++ rest ∧ Statement used st ∧ st.depth ≤ d + 1 ∧ Follows st rest := by
  obtain ⟨used, rfl, hst⟩ := (hp ts st rest).1 h
  refine ⟨t :: used, rfl, .simple hst, ?_, ?_⟩
  · cases hst <;> simp [Stmt.depth]
  · cases hst <;> trivial

theorem statement_of_reads {d : Nat} (ih : ReadsStatements (statement d) (·.depth ≤ d))
    {t : Token} {st : Stmt} (h : (statement (d + 1) t).Reads ts st rest) :
    ∃ used, t :: ts = used ++ rest ∧ Statement used st ∧ st.depth ≤ d + 1 ∧ Follows st rest := by
  obtain ⟨kind, pos⟩ := t
  cases kind with
  | name text =>
    rcases reads_nameRest.1 h with h | h
    · obtain ⟨pos₁, used, value, pos₂, rfl, hused, rfl⟩ := reads_assignment.1 h
      exact ⟨⟨_, pos⟩ :: ⟨_, pos₁⟩ :: used ++ [⟨_, pos₂⟩], by simp,
        .simple (.assignment hused), by simp [Stmt.depth], trivial⟩
    · obtain ⟨pos₁, used, args, pos₂, pos₃, rfl, hargs, rfl⟩ := reads_call.1 h
      exact ⟨⟨_, pos⟩ :: ⟨_, pos₁⟩ :: used ++ [⟨_, pos₂⟩, ⟨_, pos₃⟩], by simp,
        .simple (.call hargs), by simp [Stmt.depth], trivial⟩
  | keyword k =>
    cases k with
    | def_ => exact readsSimple_nameSlotRest.statement h
    | const => exact readsSimple_constRest.statement h
    | let_ => exact readsSimple_defineRest.statement h
    | fn =>
      obtain ⟨x, pos₁, used, params, pos₂, used', bodyPos, body, rfl, hparams, hbody, hall, rfl⟩ :=
        (reads_functionRest ih).1 h
      exact ⟨⟨_, pos⟩ :: ⟨_, x.pos⟩ :: ⟨_, pos₁⟩ :: used ++ ⟨_, pos₂⟩ :: used', by simp,
        .function hparams hbody, Nat.succ_le_succ (Stmt.depthAll_le_iff.2 hall), trivial⟩
    | loop =>
      obtain ⟨used, bodyPos, body, rfl, hbody, hall, rfl⟩ := (reads_loopRest ih).1 h
      exact ⟨⟨_, pos⟩ :: used, by simp, .loop hbody,
        Nat.succ_le_succ (Stmt.depthAll_le_iff.2 hall), trivial⟩
    | if_ =>
      obtain ⟨pos₁, used, condition, pos₂, used', thenPos, thenBody, tail, rfl, hused, hthen, hall,
        ⟨rfl, hnone, rfl⟩ | ⟨pos₃, used'', elsePos, elseBody, rfl, helse, hall', rfl⟩⟩ :=
        (reads_ifRest ih).1 h
      · exact ⟨⟨_, pos⟩ :: ⟨_, pos₁⟩ :: used ++ ⟨_, pos₂⟩ :: used', by simp, .ifThen hused hthen,
          Nat.succ_le_succ (Stmt.depthAll_le_iff.2 hall), hnone⟩
      · exact ⟨⟨_, pos⟩ :: ⟨_, pos₁⟩ :: used ++ ⟨_, pos₂⟩ :: used' ++ ⟨_, pos₃⟩ :: used'', by simp,
          .ifElse hused hthen helse, Nat.succ_le_succ (Nat.max_le.2
            ⟨Stmt.depthAll_le_iff.2 hall, Stmt.depthAll_le_iff.2 hall'⟩), trivial⟩
    | read => exact readsSimple_readRest.statement h
    | write => exact readsSimple_writeRest.statement h
    | yield => exact readsSimple_yieldRest.statement h
    | _ => exact absurd h (by simp [statement, Reads])
  | symbol s =>
    cases s with
    | lbrace =>
      simp only [statement, reads_bind, reads_pure, reads_blockRest ih] at h
      obtain ⟨body, _, ⟨used, pos₁, rfl, hbody, hall⟩, rfl, rfl⟩ := h
      exact ⟨⟨_, pos⟩ :: used ++ [⟨_, pos₁⟩], by simp, .block (.mk hbody),
        Nat.succ_le_succ (Stmt.depthAll_le_iff.2 hall), trivial⟩
    | _ => exact absurd h (by simp [statement, Reads])
  | _ => exact absurd h (by simp [statement, Reads])

theorem reads_of_simple {d : Nat} {t : Token} {used : List Token} {st : Stmt}
    (h : Simple (t :: used) st) : (statement (d + 1) t).Reads (used ++ rest) st rest := by
  have hst := h
  cases h with
  | nameSlot => exact (readsSimple_nameSlotRest _ _ _).2 ⟨_, rfl, hst⟩
  | constant => exact (readsSimple_constRest _ _ _).2 ⟨_, rfl, hst⟩
  | definition => exact (readsSimple_defineRest _ _ _).2 ⟨_, rfl, hst⟩
  | @assignment x xPos pos₁ used value pos₂ hvalue =>
    exact reads_nameRest.2 (.inl (reads_assignment.2
      ⟨pos₁, used, value, pos₂, by simp, hvalue, rfl⟩))
  | @call x xPos pos₁ used args pos₂ pos₃ hargs =>
    exact reads_nameRest.2 (.inr (reads_call.2
      ⟨pos₁, used, args, pos₂, pos₃, by simp, hargs, rfl⟩))
  | read => exact (readsSimple_readRest _ _ _).2 ⟨_, rfl, hst⟩
  | write => exact (readsSimple_writeRest _ _ _).2 ⟨_, rfl, hst⟩
  | yield => exact (readsSimple_yieldRest _ _ _).2 ⟨_, rfl, hst⟩

theorem reads_of_statement {d : Nat} (ih : ReadsStatements (statement d) (·.depth ≤ d))
    {t : Token} {used : List Token} {st : Stmt} (h : Statement used st)
    (heq : t :: ts = used ++ rest) (hdepth : st.depth ≤ d + 1) (hfollows : Follows st rest) :
    (statement (d + 1) t).Reads ts st rest := by
  obtain ⟨t', us, rfl, -⟩ := h.head
  obtain ⟨rfl, rfl⟩ := List.cons.inj heq
  cases h with
  | simple h => exact reads_of_simple h
  | @function pos x xPos pos₁ used params pos₂ used' bodyPos body hparams hbody =>
    exact (reads_functionRest ih).2 ⟨⟨x, xPos⟩, pos₁, used, params, pos₂, used', bodyPos, body,
      by simp, hparams, hbody, Stmt.depthAll_le_iff.1 (Nat.le_of_succ_le_succ hdepth), rfl⟩
  | @loop pos _ bodyPos body hbody =>
    exact (reads_loopRest ih).2 ⟨_, bodyPos, body, rfl, hbody,
      Stmt.depthAll_le_iff.1 (Nat.le_of_succ_le_succ hdepth), rfl⟩
  | @ifThen pos pos₁ used condition pos₂ used' thenPos thenBody hcondition hthen =>
    exact (reads_ifRest ih).2 ⟨pos₁, used, condition, pos₂, used', thenPos, thenBody, rest,
      by simp, hcondition, hthen, Stmt.depthAll_le_iff.1 (Nat.le_of_succ_le_succ hdepth),
      .inl ⟨rfl, hfollows, rfl⟩⟩
  | @ifElse pos pos₁ used condition pos₂ used' thenPos thenBody pos₃ used'' elsePos elseBody
      hcondition hthen helse =>
    obtain ⟨hdepth₁, hdepth₂⟩ := Nat.max_le.1 (Nat.le_of_succ_le_succ hdepth)
    exact (reads_ifRest ih).2 ⟨pos₁, used, condition, pos₂, used', thenPos, thenBody,
      ⟨.keyword .else_, pos₃⟩ :: used'' ++ rest, by simp, hcondition, hthen,
      Stmt.depthAll_le_iff.1 hdepth₁, .inr ⟨pos₃, used'', elsePos, elseBody, rfl, helse,
        Stmt.depthAll_le_iff.1 hdepth₂, rfl⟩⟩
  | @block _ pos body hbody =>
    cases hbody with
    | @mk _ used _ pos' hbody =>
      simp only [statement, reads_bind, reads_pure, reads_blockRest ih]
      exact ⟨body, rest, ⟨used, pos', by simp, hbody,
        Stmt.depthAll_le_iff.1 (Nat.le_of_succ_le_succ hdepth)⟩, rfl, rfl⟩

/-- A statement is read exactly if the grammar has it and it is not too deep. -/
theorem reads_statement (d : Nat) : ReadsStatements (statement d) (·.depth ≤ d) := by
  induction d with
  | zero =>
    intro t ts st rest
    constructor
    · intro h
      exact absurd h not_reads_fail
    · rintro ⟨_, _, _, hdepth, _⟩
      exact absurd hdepth (Nat.not_le.2 st.depth_pos)
  | succ d ih =>
    intro t ts st rest
    constructor
    · exact statement_of_reads ih
    · rintro ⟨used, heq, hst, hdepth, hfollows⟩
      exact reads_of_statement ih hst heq hdepth hfollows

/-! ### The limit on nesting -/

/-- The second reader gives what the first one gives, unless that one meets the limit. -/
def Refines {α : Type} (p q : Reader α) : Prop :=
  ∀ ts, (∃ pos, p ts = .error ⟨.nestingTooDeep, pos⟩) ∨ q ts = p ts

namespace Refines

variable {α β : Type}

theorem refl (p : Reader α) : Refines p p := fun _ => .inr rfl

theorem bind {p q : Reader α} {f g : α → Reader β} (h : Refines p q)
    (hfg : ∀ a, Refines (f a) (g a)) : Refines (p >>= f) (q >>= g) := by
  intro ts
  rcases h ts with ⟨pos, herror⟩ | heq
  · exact .inl ⟨pos, by simp only [Bind.bind, Reader.bind, herror]⟩
  cases hp : p ts with
  | error fault => exact .inr (by simp only [Bind.bind, Reader.bind, heq, hp])
  | ok r =>
    obtain ⟨⟨a, mid⟩, hmid⟩ := r
    rcases hfg a mid with ⟨pos, herror⟩ | heq'
    · exact .inl ⟨pos, by simp only [Bind.bind, Reader.bind, hp, herror]⟩
    · exact .inr (by simp only [Bind.bind, Reader.bind, heq, hp, heq'])

variable {item item' : Token → Reader Stmt}

theorem many {stop : TokenKind → Bool} (h : ∀ t, Refines (item t) (item' t)) :
    Refines (Reader.many stop item) (Reader.many stop item') := by
  intro ts
  fun_induction Reader.many stop item ts with
  | case1 => exact .inr (by rw [Reader.many])
  | case2 t ts hstop => exact .inr (by rw [Reader.many, if_pos hstop])
  | case3 t ts hstop fault hitem =>
    rcases h t ts with ⟨pos, herror⟩ | heq
    · exact .inl ⟨pos, by simpa [hitem] using herror⟩
    · exact .inr (by rw [Reader.many, if_neg hstop]; simp [heq, hitem])
  | case4 t ts hstop a mid hmid hitem fault hmany ih =>
    have heq : item' t ts = .ok ⟨(a, mid), hmid⟩ := by simpa [hitem] using h t ts
    rcases ih with ⟨pos, herror⟩ | heq'
    · exact .inl ⟨pos, by simpa [hmany] using herror⟩
    · exact .inr (by rw [Reader.many, if_neg hstop]; simp [heq, heq', hmany])
  | case5 t ts hstop a mid hmid hitem as rest hrest hmany ih =>
    have heq : item' t ts = .ok ⟨(a, mid), hmid⟩ := by simpa [hitem] using h t ts
    have heq' : Reader.many stop item' mid = .ok ⟨(as, rest), hrest⟩ := by
      simpa [hmany] using ih
    exact .inr (by rw [Reader.many, if_neg hstop]; simp [heq, heq'])

theorem blockRest (h : ∀ t, Refines (item t) (item' t)) :
    Refines (Reader.blockRest item) (Reader.blockRest item') :=
  .bind (.many h) fun _ => .refl _

theorem block (h : ∀ t, Refines (item t) (item' t)) :
    Refines (Reader.block item) (Reader.block item') :=
  .bind (.refl _) fun _ => .bind (.blockRest h) fun _ => .refl _

theorem ifRest (h : ∀ t, Refines (item t) (item' t)) (pos : Position) :
    Refines (Reader.ifRest item pos) (Reader.ifRest item' pos) := by
  refine .bind (.refl _) fun _ => .bind (.refl _) fun _ => .bind (.refl _) fun _ =>
    .bind (.block h) fun _ => .bind (.refl _) fun found => ?_
  cases found with
  | true => exact .bind (.block h) fun _ => .refl _
  | false => exact .refl _

theorem functionRest (h : ∀ t, Refines (item t) (item' t)) (pos : Position) :
    Refines (Reader.functionRest item pos) (Reader.functionRest item' pos) := by
  refine .bind (.refl _) fun _ => .bind (.refl _) fun _ => ?_
  exact .bind (.block h) fun _ => .refl _

/-- A greater limit changes no reading that does not meet the smaller one. -/
theorem statement {d e : Nat} (hle : d ≤ e) (t : Token) :
    Refines (Reader.statement d t) (Reader.statement e t) := by
  induction d generalizing e t with
  | zero => exact fun _ => .inl ⟨t.pos, rfl⟩
  | succ d ih =>
    obtain ⟨e, rfl⟩ : ∃ e', e = e' + 1 := ⟨e - 1, by omega⟩
    have hstatement : ∀ t, Refines (Reader.statement d t) (Reader.statement e t) :=
      ih (Nat.le_of_succ_le_succ hle)
    obtain ⟨kind, pos⟩ := t
    cases kind with
    | keyword k =>
      cases k with
      | fn => exact .functionRest hstatement pos
      | loop => exact .bind (.block hstatement) fun _ => .refl _
      | if_ => exact .ifRest hstatement pos
      | _ => exact .refl _
    | symbol s =>
      cases s with
      | lbrace => exact .bind (.blockRest hstatement) fun _ => .refl _
      | _ => exact .refl _
    | _ => exact .refl _

end Refines

end Reader

namespace Program

open Grammar Reader

variable {ts : List Token} {p : Program} {limits : Limits}

/-- All the statements of a token list, to a given depth. -/
theorem reads_statements {d : Nat} {sts : List Stmt} :
    Reads (many (fun _ => false) (statement d)) ts sts [] ↔
      Statements ts sts ∧ Stmt.depthAll sts ≤ d := by
  rw [reads_many (reads_statement d) (by simp), Stmt.depthAll_le_iff]
  simp [Ends]

theorem rest_eq_nil_of_reads {d : Nat} {sts : List Stmt} {rest : List Token}
    (h : Reads (many (fun _ => false) (statement d)) ts sts rest) : rest = [] := by
  obtain ⟨_, _, _, _, hends⟩ := (reads_many (reads_statement d) (by simp)).1 h
  cases rest with
  | nil => rfl
  | cons t rest => simpa using hends t (by simp)

/-- A program is parsed exactly if the grammar derives it and it is not too deep. -/
theorem parse_eq_ok_iff :
    parse ts limits = .ok p ↔ Derives ts p ∧ Stmt.depthAll p.statements ≤ limits.nesting := by
  rw [Derives, ← reads_statements]
  unfold parse
  constructor
  · intro h
    split at h
    · cases h
    · rename_i statements rest hle hmany
      obtain rfl : Program.mk statements = p := by simpa using h
      have hreads : Reads (many (fun _ => false) (statement limits.nesting)) ts statements rest :=
        ⟨hle, hmany⟩
      exact rest_eq_nil_of_reads hreads ▸ hreads
  · rintro ⟨hle, hmany⟩
    simp only [hmany]

/-- No token list has two trees. -/
theorem derives_unique {q : Program} (hp : Derives ts p) (hq : Derives ts q) : p = q := by
  let d := max (Stmt.depthAll p.statements) (Stmt.depthAll q.statements)
  have hp' : Reads (many (fun _ => false) (statement d)) ts p.statements [] :=
    reads_statements.2 ⟨hp, Nat.le_max_left _ _⟩
  have hq' : Reads (many (fun _ => false) (statement d)) ts q.statements [] :=
    reads_statements.2 ⟨hq, Nat.le_max_right _ _⟩
  have heq : p.statements = q.statements := (hp'.unique hq').1
  cases p
  cases q
  simpa using heq

/-- What the grammar derives is parsed unless the limit on nesting is met. -/
theorem parse_of_derives (h : Derives ts p) :
    parse ts limits = .ok p ∨ ∃ pos, parse ts limits = .error ⟨.nestingTooDeep, pos⟩ := by
  let d := max limits.nesting (Stmt.depthAll p.statements)
  obtain ⟨hle, hmany⟩ : Reads (many (fun _ => false) (statement d)) ts p.statements [] :=
    reads_statements.2 ⟨h, Nat.le_max_right _ _⟩
  have hrefines : Refines (many (fun _ => false) (statement limits.nesting))
      (many (fun _ => false) (statement d)) := .many (.statement (Nat.le_max_left _ _))
  rcases hrefines ts with ⟨pos, herror⟩ | heq
  · exact .inr ⟨pos, by simp only [parse, herror]⟩
  · exact .inl (by simp only [parse, ← heq, hmany])

/-- As long as the limit on nesting is not met, a token list is parsed with a tree exactly if
the grammar derives it with that tree; and the grammar derives no token list with two trees. -/
theorem parse_iff_derives (ts : List Token) (limits : Limits) :
    ((∀ pos, parse ts limits ≠ .error ⟨.nestingTooDeep, pos⟩) →
      ∀ p, parse ts limits = .ok p ↔ Derives ts p) ∧
    ∀ p q, Derives ts p → Derives ts q → p = q := by
  refine ⟨fun hlimit p => ⟨fun h => (parse_eq_ok_iff.1 h).1, fun h => ?_⟩,
    fun _ _ => derives_unique⟩
  rcases parse_of_derives h with h | ⟨pos, h⟩
  · exact h
  · exact absurd h (hlimit pos)

/-- `if (!a < (b - -2) * 3) { f(a, b); }` -/
def guardedCallTokens : List Token :=
  [⟨.keyword .if_, ⟨1, 1⟩⟩, ⟨.symbol .lparen, ⟨1, 4⟩⟩, ⟨.symbol .not, ⟨1, 5⟩⟩,
    ⟨.name "a", ⟨1, 6⟩⟩, ⟨.symbol .lt, ⟨1, 8⟩⟩, ⟨.symbol .lparen, ⟨1, 10⟩⟩,
    ⟨.name "b", ⟨1, 11⟩⟩, ⟨.symbol .minus, ⟨1, 13⟩⟩, ⟨.symbol .minus, ⟨1, 15⟩⟩,
    ⟨.integer 2, ⟨1, 16⟩⟩, ⟨.symbol .rparen, ⟨1, 17⟩⟩, ⟨.symbol .star, ⟨1, 19⟩⟩,
    ⟨.integer 3, ⟨1, 21⟩⟩, ⟨.symbol .rparen, ⟨1, 22⟩⟩, ⟨.symbol .lbrace, ⟨1, 24⟩⟩,
    ⟨.name "f", ⟨1, 26⟩⟩, ⟨.symbol .lparen, ⟨1, 27⟩⟩, ⟨.name "a", ⟨1, 28⟩⟩,
    ⟨.symbol .comma, ⟨1, 29⟩⟩, ⟨.name "b", ⟨1, 31⟩⟩, ⟨.symbol .rparen, ⟨1, 32⟩⟩,
    ⟨.symbol .semicolon, ⟨1, 33⟩⟩, ⟨.symbol .rbrace, ⟨1, 35⟩⟩]

def guardedCall : Program where
  statements := [.ifThen ⟨1, 1⟩
    (.binary .lt (.not ⟨1, 5⟩ (.name ⟨"a", ⟨1, 6⟩⟩))
      (.binary .mul (.binary .sub (.name ⟨"b", ⟨1, 11⟩⟩) (.literal ⟨1, 15⟩ (.int (-2))))
        (.literal ⟨1, 21⟩ (.int 3))))
    ⟨1, 24⟩ [.call ⟨"f", ⟨1, 26⟩⟩ [.name ⟨"a", ⟨1, 28⟩⟩, .name ⟨"b", ⟨1, 31⟩⟩]]]

theorem derives_guardedCall :
    (∀ pos, parse guardedCallTokens ≠ .error ⟨.nestingTooDeep, pos⟩) ∧
      Derives guardedCallTokens guardedCall ∧
      ∀ q, Derives guardedCallTokens q → guardedCall = q := by
  have hparse : parse guardedCallTokens = .ok guardedCall := by cbv
  have hlimit : ∀ pos, parse guardedCallTokens ≠ .error ⟨.nestingTooDeep, pos⟩ := by
    simp [hparse]
  have hderives : Derives guardedCallTokens guardedCall :=
    ((parse_iff_derives guardedCallTokens {}).1 hlimit guardedCall).1 hparse
  exact ⟨hlimit, hderives,
    fun q => (parse_iff_derives guardedCallTokens {}).2 guardedCall q hderives⟩

end Program

end Chipwright
