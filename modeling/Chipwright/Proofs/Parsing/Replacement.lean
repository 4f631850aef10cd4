import Chipwright.Proofs.Parsing.Program

/-!
# Another literal in the place of one

Where a program has the literal `true`, any other literal may stand: with the tokens of that literal
in the place of the one token it is a program too, and its tree has the other literal in that place.
-/
namespace Chipwright

variable (q : Position) (x : Literal)

/-- The literal at a position, with `x` in the place of the `true` at the position `q`. -/
def Literal.put (pos : Position) (value : Literal) : Literal :=
  if pos = q ∧ value = .bool true then x else value

/-- The expression with the literal `x` in the place of the `true` at the position `q`. -/
def Expr.put : Expr → Expr
  | literal pos value => .literal pos (Literal.put q x pos value)
  | name y => .name y
  | not pos operand => .not pos operand.put
  | binary op left right => .binary op left.put right.put

mutual

/-- The statement with the literal `x` in the place of the `true` at the position `q`. -/
def Stmt.put : Stmt → Stmt
  | .nameSlot pos slotPos slot name => .nameSlot pos slotPos slot name
  | .const pos name valuePos value => .const pos name valuePos (Literal.put q x valuePos value)
  | .define pos name value => .define pos name (value.put q x)
  | .assign target value => .assign target (value.put q x)
  | .block pos body => .block pos (Stmt.putAll body)
  | .function pos name params bodyPos body => .function pos name params bodyPos (Stmt.putAll body)
  | .call callee args => .call callee (args.map (Expr.put q x))
  | .loop pos bodyPos body => .loop pos bodyPos (Stmt.putAll body)
  | .ifThen pos condition thenPos thenBody =>
    .ifThen pos (condition.put q x) thenPos (Stmt.putAll thenBody)
  | .ifElse pos condition thenPos thenBody elsePos elseBody =>
    .ifElse pos (condition.put q x) thenPos (Stmt.putAll thenBody) elsePos (Stmt.putAll elseBody)
  | .read pos device property target => .read pos device property target
  | .write pos value device property => .write pos (value.put q x) device property
  | .yield pos => .yield pos

def Stmt.putAll : List Stmt → List Stmt
  | [] => []
  | st :: sts => st.put :: Stmt.putAll sts

end

/-- The program with the literal `x` in the place of the `true` at the position `q`. -/
def Program.put (p : Program) : Program := ⟨Stmt.putAll q x p.statements⟩

mutual

theorem Stmt.depth_put : ∀ st : Stmt, (st.put q x).depth = st.depth
  | .block _ body | .function _ _ _ _ body | .loop _ _ body | .ifThen _ _ _ body => by
    simp only [Stmt.put, Stmt.depth, Stmt.depthAll_putAll body]
  | .ifElse _ _ _ thenBody _ elseBody => by
    simp only [Stmt.put, Stmt.depth, Stmt.depthAll_putAll thenBody, Stmt.depthAll_putAll elseBody]
  | .nameSlot .. | .const .. | .define .. | .assign .. | .call .. | .read .. | .write ..
  | .yield .. => rfl

theorem Stmt.depthAll_putAll : ∀ sts : List Stmt,
    Stmt.depthAll (Stmt.putAll q x sts) = Stmt.depthAll sts
  | [] => rfl
  | st :: sts => by
    simp only [Stmt.putAll, Stmt.depthAll, Stmt.depth_put st, Stmt.depthAll_putAll sts]

end

namespace Grammar

variable {q x} {new ts us : List Token}

/-- The tokens with those of a literal in the place of the `true` at a position. -/
def replaced (q : Position) (new : List Token) (ts : List Token) : List Token :=
  ts.flatMap fun t => if t = ⟨.keyword .true_, q⟩ then new else [t]

@[simp] theorem replaced_nil : replaced q new [] = [] := rfl

@[simp] theorem replaced_append :
    replaced q new (ts ++ us) = replaced q new ts ++ replaced q new us :=
  List.flatMap_append

theorem replaced_cons {t : Token} (h : t ≠ ⟨.keyword .true_, q⟩) :
    replaced q new (t :: ts) = t :: replaced q new ts := by
  simp [replaced, h]

@[simp] theorem replaced_here :
    replaced q new (⟨.keyword .true_, q⟩ :: ts) = new ++ replaced q new ts := by
  simp [replaced]

section Tokens

variable {pos : Position}

@[simp] theorem replaced_name {text : String} :
    replaced q new (⟨.name text, pos⟩ :: ts) = ⟨.name text, pos⟩ :: replaced q new ts :=
  replaced_cons (by simp)

@[simp] theorem replaced_device {slot : Slot} :
    replaced q new (⟨.device slot, pos⟩ :: ts) = ⟨.device slot, pos⟩ :: replaced q new ts :=
  replaced_cons (by simp)

@[simp] theorem replaced_integer {n : Nat} :
    replaced q new (⟨.integer n, pos⟩ :: ts) = ⟨.integer n, pos⟩ :: replaced q new ts :=
  replaced_cons (by simp)

@[simp] theorem replaced_float {y : Decimal.Binary64} :
    replaced q new (⟨.float y, pos⟩ :: ts) = ⟨.float y, pos⟩ :: replaced q new ts :=
  replaced_cons (by simp)

@[simp] theorem replaced_symbol {s : Symbol} :
    replaced q new (⟨.symbol s, pos⟩ :: ts) = ⟨.symbol s, pos⟩ :: replaced q new ts :=
  replaced_cons (by simp)

@[simp] theorem replaced_keyword {k : Keyword} (hk : k ≠ .true_) :
    replaced q new (⟨.keyword k, pos⟩ :: ts) = ⟨.keyword k, pos⟩ :: replaced q new ts :=
  replaced_cons (by simp [hk])

end Tokens

theorem replaced_of_notMem (h : ⟨.keyword .true_, q⟩ ∉ ts) : replaced q new ts = ts := by
  induction ts with
  | nil => rfl
  | cons t ts ih =>
    obtain ⟨ht, hts⟩ := not_or.1 (List.mem_cons.not.1 h)
    rw [replaced_cons (Ne.symm ht), ih hts]

/-! ## Phrases without literals -/

theorem replaced_isDevice {device : Device} (h : IsDevice ts device) : replaced q new ts = ts := by
  cases h <;> simp

theorem replaced_commaTail {xs : List Name} (h : CommaTail IsName ts xs) :
    replaced q new ts = ts := by
  induction h with
  | nil => rfl
  | cons head _ ih =>
    cases head
    simp [ih]

theorem replaced_commaList {xs : List Name} (h : CommaList IsName ts xs) :
    replaced q new ts = ts := by
  cases h with
  | nil => rfl
  | cons head tail =>
    cases head
    simp [replaced_commaTail tail]

/-! ## Expressions -/

section Phrases

variable (hnew : IsLiteral new q x)

include hnew

theorem isLiteral_put {pos : Position} {value : Literal} (h : IsLiteral ts pos value) :
    IsLiteral (replaced q new ts) pos (Literal.put q x pos value) := by
  cases h with
  | true_ =>
    by_cases hpos : pos = q
    · subst hpos
      simpa [Literal.put] using hnew
    · rw [replaced_cons (by simp [hpos]), Literal.put, if_neg (by simp [hpos])]
      exact .true_
  | false_ => simpa [Literal.put] using IsLiteral.false_
  | integer bound => simpa [Literal.put] using IsLiteral.integer bound
  | negative => simpa [Literal.put] using IsLiteral.negative
  | float => simpa [Literal.put] using IsLiteral.float
  | negativeFloat => simpa [Literal.put] using IsLiteral.negativeFloat

theorem expression_put {l : Level} {e : Expr} (h : Expression l ts e) :
    Expression l (replaced q new ts) (e.put q x) := by
  induction h with
  | next _ ih => exact .next ih
  | chain hchains hop _ _ ihleft ihright =>
    rw [replaced_append, replaced_symbol]
    exact .chain hchains hop ihleft ihright
  | compare hcompares hop _ _ ihleft ihright =>
    rw [replaced_append, replaced_symbol]
    exact .compare hcompares hop ihleft ihright
  | not _ ih =>
    rw [replaced_symbol]
    exact .not ih
  | literal hx => exact .literal (isLiteral_put hnew hx)
  | name =>
    rw [replaced_name]
    exact .name
  | parenthesized _ ih =>
    rw [List.cons_append, replaced_symbol, replaced_append, replaced_symbol]
    exact .parenthesized ih

theorem commaTail_put {es : List Expr} (h : CommaTail IsExpr ts es) :
    CommaTail IsExpr (replaced q new ts) (es.map (Expr.put q x)) := by
  induction h with
  | nil => exact .nil
  | cons head _ ih =>
    rw [List.cons_append, replaced_symbol, replaced_append]
    exact .cons (expression_put hnew head) ih

theorem commaList_put {es : List Expr} (h : CommaList IsExpr ts es) :
    CommaList IsExpr (replaced q new ts) (es.map (Expr.put q x)) := by
  cases h with
  | nil => exact .nil
  | cons head tail =>
    rw [replaced_append]
    exact .cons (expression_put hnew head) (commaTail_put hnew tail)

/-! ## Statements -/

theorem simple_put {st : Stmt} (h : Simple ts st) :
    Simple (replaced q new ts) (st.put q x) := by
  cases h with
  | nameSlot => simpa [Stmt.put] using Simple.nameSlot
  | constant hvalue => simpa [Stmt.put] using Simple.constant (isLiteral_put hnew hvalue)
  | definition hvalue => simpa [Stmt.put] using Simple.definition (expression_put hnew hvalue)
  | assignment hvalue => simpa [Stmt.put] using Simple.assignment (expression_put hnew hvalue)
  | call hargs => simpa [Stmt.put] using Simple.call (commaList_put hnew hargs)
  | read hdevice => simpa [Stmt.put, replaced_isDevice hdevice] using Simple.read hdevice
  | write hvalue hdevice =>
    simpa [Stmt.put, replaced_isDevice hdevice] using
      Simple.write (expression_put hnew hvalue) hdevice
  | yield => simpa [Stmt.put] using Simple.yield

end Phrases

mutual

theorem statement_put (hnew : IsLiteral new q x) : ∀ {ts : List Token} {st : Stmt},
    Statement ts st → Statement (replaced q new ts) (st.put q x)
  | _, _, .simple h => .simple (simple_put hnew h)
  | _, _, .function hparams hbody => by
    simpa [Stmt.put, replaced_commaList hparams] using
      Statement.function hparams (block_put hnew hbody)
  | _, _, .loop hbody => by
    simpa [Stmt.put] using Statement.loop (block_put hnew hbody)
  | _, _, .ifThen hcondition hthen => by
    simpa [Stmt.put] using
      Statement.ifThen (expression_put hnew hcondition) (block_put hnew hthen)
  | _, _, .ifElse hcondition hthen helse => by
    simpa [Stmt.put] using
      Statement.ifElse (expression_put hnew hcondition) (block_put hnew hthen)
        (block_put hnew helse)
  | _, _, .block hbody => .block (block_put hnew hbody)

theorem block_put (hnew : IsLiteral new q x) : ∀ {ts : List Token} {pos : Position}
    {body : List Stmt}, Block ts pos body → Block (replaced q new ts) pos (Stmt.putAll q x body)
  | _, _, _, .mk hbody => by
    simpa using Block.mk (statements_put hnew hbody)

theorem statements_put (hnew : IsLiteral new q x) : ∀ {ts : List Token} {body : List Stmt},
    Statements ts body → Statements (replaced q new ts) (Stmt.putAll q x body)
  | _, _, .nil => .nil
  | _, _, .cons head tail => by
    rw [replaced_append]
    exact .cons (statement_put hnew head) (statements_put hnew tail)

end

/-- With the tokens of another literal in the place of `true`, the tokens are a program with that
literal. -/
theorem derives_put {p : Program} (hnew : IsLiteral new q x) (h : Derives ts p) :
    Derives (replaced q new ts) (p.put q x) :=
  statements_put hnew h

end Grammar

open Grammar

/-- With the tokens of another literal in the place of `true`, the tokens are parsed as the program
with that literal. -/
theorem Program.parse_put {before new after : List Token} {q : Position} {x : Literal} {p : Program}
    (h : parse (before ++ ⟨.keyword .true_, q⟩ :: after) = .ok p) (hnew : IsLiteral new q x)
    (hbefore : ⟨.keyword .true_, q⟩ ∉ before) (hafter : ⟨.keyword .true_, q⟩ ∉ after) :
    parse (before ++ (new ++ after)) = .ok (p.put q x) := by
  obtain ⟨hderives, hdepth⟩ := parse_eq_ok_iff.1 h
  have hderives' := derives_put hnew hderives
  rw [replaced_append, replaced_here, replaced_of_notMem hbefore, replaced_of_notMem hafter]
    at hderives'
  refine parse_eq_ok_iff.2 ⟨hderives', ?_⟩
  rw [Program.put, Stmt.depthAll_putAll]
  exact hdepth

end Chipwright
