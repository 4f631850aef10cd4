import Chipwright.Program.Tree
import Chipwright.Token

/-!
# The grammar of programs

Which tokens are a program, and which tree they stand for, as rules over tokens and trees.
Nothing here reads from left to right: a rule says how the tokens of a phrase are put
together from those of its parts.
-/
namespace Chipwright.Grammar

/-- `literal ::= '-'? (INT | FLOAT) | 'true' | 'false'`

A whole number without a minus is at most `2 ^ 63 - 1`. -/
inductive IsLiteral : List Token → Position → Literal → Prop
  | true_ {pos} : IsLiteral [⟨.keyword .true_, pos⟩] pos (.bool true)
  | false_ {pos} : IsLiteral [⟨.keyword .false_, pos⟩] pos (.bool false)
  | integer {n pos} (bound : n ≤ 9223372036854775807) :
      IsLiteral [⟨.integer n, pos⟩] pos (.int n)
  | negative {n pos pos'} :
      IsLiteral [⟨.symbol .minus, pos⟩, ⟨.integer n, pos'⟩] pos (.int (-n))
  | float {x pos} : IsLiteral [⟨.float x, pos⟩] pos (.float x)
  | negativeFloat {x pos pos'} :
      IsLiteral [⟨.symbol .minus, pos⟩, ⟨.float x, pos'⟩] pos (.float x.neg)

/-- The levels of expressions, from the loosest to the tightest. -/
inductive Level
  | disjunction
  | conjunction
  | comparison
  | sum
  | factor
  | unary
  | term

/-- The level whose phrases are the parts of a level's phrases. -/
def Level.next : Level → Level
  | .disjunction => .conjunction
  | .conjunction => .comparison
  | .comparison => .sum
  | .sum => .factor
  | .factor => .unary
  | .unary => .term
  | .term => .term

/-- The level at which an operator joins its operands. -/
def level : BinaryOp → Level
  | .or => .disjunction
  | .and => .conjunction
  | .eq | .ne | .lt | .gt | .le | .ge => .comparison
  | .add | .sub => .sum
  | .mul | .div => .factor

/-- The phrases of each level. An expression is a disjunction. -/
inductive Expression : Level → List Token → Expr → Prop
  /-- A phrase of a level without an operator of that level is one of the next level. -/
  | next {l ts e} (inner : Expression l.next ts e) : Expression l ts e
  /-- `disjunction ::= conjunction ('||' conjunction)*`,
  `conjunction ::= comparison ('&&' comparison)*`, `sum ::= factor (('+' | '-') factor)*` and
  `factor ::= unary (('*' | '/') unary)*`, all grouped to the left -/
  | chain {op s pos ts us left right} (chains : op.isComparison = false)
      (spelled : s.text = op.text) (hleft : Expression (level op) ts left)
      (hright : Expression (level op).next us right) :
      Expression (level op) (ts ++ ⟨.symbol s, pos⟩ :: us) (.binary op left right)
  /-- `comparison ::= sum (('==' | '!=' | '<' | '>' | '<=' | '>=') sum)?` -/
  | compare {op s pos ts us left right} (compares : op.isComparison = true)
      (spelled : s.text = op.text) (hleft : Expression .sum ts left)
      (hright : Expression .sum us right) :
      Expression .comparison (ts ++ ⟨.symbol s, pos⟩ :: us) (.binary op left right)
  /-- `unary ::= '!' unary | term` -/
  | not {pos ts e} (operand : Expression .unary ts e) :
      Expression .unary (⟨.symbol .not, pos⟩ :: ts) (.not pos e)
  /-- `term ::= literal | IDENT | '(' expr ')'` -/
  | literal {ts pos x} (hx : IsLiteral ts pos x) : Expression .term ts (.literal pos x)
  | name {text pos} : Expression .term [⟨.name text, pos⟩] (.name ⟨text, pos⟩)
  | parenthesized {ts e pos pos'} (inner : Expression .disjunction ts e) :
      Expression .term (⟨.symbol .lparen, pos⟩ :: ts ++ [⟨.symbol .rparen, pos'⟩]) e

/-- `expr ::= disjunction` -/
abbrev IsExpr : List Token → Expr → Prop := Expression .disjunction

/-- An identifier. -/
inductive IsName : List Token → Name → Prop
  | mk {text pos} : IsName [⟨.name text, pos⟩] ⟨text, pos⟩

/-- `devref ::= DEVICE | IDENT` -/
inductive IsDevice : List Token → Device → Prop
  | direct {slot pos} : IsDevice [⟨.device slot, pos⟩] (.direct pos slot)
  | named {text pos} : IsDevice [⟨.name text, pos⟩] (.named ⟨text, pos⟩)

section Lists

variable {α : Type} (item : List Token → α → Prop)

/-- `(',' item)*` -/
inductive CommaTail : List Token → List α → Prop
  | nil : CommaTail [] []
  | cons {pos ts us a as} (head : item ts a) (tail : CommaTail us as) :
      CommaTail (⟨.symbol .comma, pos⟩ :: ts ++ us) (a :: as)

/-- `(item (',' item)*)?` -/
inductive CommaList : List Token → List α → Prop
  | nil : CommaList [] []
  | cons {ts us a as} (head : item ts a) (tail : CommaTail item us as) :
      CommaList (ts ++ us) (a :: as)

end Lists

/-- The rules whose parts are not blocks. -/
inductive Simple : List Token → Stmt → Prop
  /-- `alias ::= 'def' DEVICE 'as' IDENT ';'` -/
  | nameSlot {pos slot slotPos pos₁ x xPos pos₂} :
      Simple [⟨.keyword .def_, pos⟩, ⟨.device slot, slotPos⟩, ⟨.keyword .as_, pos₁⟩,
        ⟨.name x, xPos⟩, ⟨.symbol .semicolon, pos₂⟩] (.nameSlot pos slotPos slot ⟨x, xPos⟩)
  /-- `constant ::= 'const' IDENT '=' literal ';'` -/
  | constant {pos x xPos pos₁ ts valuePos value pos₂} (hvalue : IsLiteral ts valuePos value) :
      Simple (⟨.keyword .const, pos⟩ :: ⟨.name x, xPos⟩ :: ⟨.symbol .assign, pos₁⟩ ::
        ts ++ [⟨.symbol .semicolon, pos₂⟩]) (.const pos ⟨x, xPos⟩ valuePos value)
  /-- `definition ::= 'let' IDENT '=' expr ';'` -/
  | definition {pos x xPos pos₁ ts value pos₂} (hvalue : IsExpr ts value) :
      Simple (⟨.keyword .let_, pos⟩ :: ⟨.name x, xPos⟩ :: ⟨.symbol .assign, pos₁⟩ ::
        ts ++ [⟨.symbol .semicolon, pos₂⟩]) (.define pos ⟨x, xPos⟩ value)
  /-- `assignment ::= IDENT '=' expr ';'` -/
  | assignment {x xPos pos₁ ts value pos₂} (hvalue : IsExpr ts value) :
      Simple (⟨.name x, xPos⟩ :: ⟨.symbol .assign, pos₁⟩ :: ts ++ [⟨.symbol .semicolon, pos₂⟩])
        (.assign ⟨x, xPos⟩ value)
  /-- `call ::= IDENT '(' (expr (',' expr)*)? ')' ';'` -/
  | call {x xPos pos₁ ts args pos₂ pos₃} (hargs : CommaList IsExpr ts args) :
      Simple (⟨.name x, xPos⟩ :: ⟨.symbol .lparen, pos₁⟩ ::
        ts ++ [⟨.symbol .rparen, pos₂⟩, ⟨.symbol .semicolon, pos₃⟩]) (.call ⟨x, xPos⟩ args)
  /-- `read ::= 'read' devref '.' IDENT 'into' IDENT ';'` -/
  | read {pos ts device pos₁ property pos₂ pos₃ x xPos pos₄} (hdevice : IsDevice ts device) :
      Simple (⟨.keyword .read, pos⟩ :: ts ++ [⟨.symbol .dot, pos₁⟩, ⟨.name property, pos₂⟩,
        ⟨.keyword .into, pos₃⟩, ⟨.name x, xPos⟩, ⟨.symbol .semicolon, pos₄⟩])
        (.read pos device property ⟨x, xPos⟩)
  /-- `write ::= 'write' expr 'into' devref '.' IDENT ';'` -/
  | write {pos ts value pos₁ us device pos₂ property pos₃ pos₄} (hvalue : IsExpr ts value)
      (hdevice : IsDevice us device) :
      Simple (⟨.keyword .write, pos⟩ :: ts ++ ⟨.keyword .into, pos₁⟩ :: us ++
        [⟨.symbol .dot, pos₂⟩, ⟨.name property, pos₃⟩, ⟨.symbol .semicolon, pos₄⟩])
        (.write pos value device property)
  /-- `yield ::= 'yield' ';'` -/
  | yield {pos pos₁} : Simple [⟨.keyword .yield, pos⟩, ⟨.symbol .semicolon, pos₁⟩] (.yield pos)

mutual

/-- `statement ::= alias | constant | definition | assignment | call | function | loop | if |
read | write | yield | block` -/
inductive Statement : List Token → Stmt → Prop
  | simple {ts st} (h : Simple ts st) : Statement ts st
  /-- `function ::= 'fn' IDENT '(' (IDENT (',' IDENT)*)? ')' block` -/
  | function {pos x xPos pos₁ ts params pos₂ us bodyPos body}
      (hparams : CommaList IsName ts params) (hbody : Block us bodyPos body) :
      Statement (⟨.keyword .fn, pos⟩ :: ⟨.name x, xPos⟩ :: ⟨.symbol .lparen, pos₁⟩ ::
        ts ++ ⟨.symbol .rparen, pos₂⟩ :: us) (.function pos ⟨x, xPos⟩ params bodyPos body)
  /-- `loop ::= 'loop' block` -/
  | loop {pos ts bodyPos body} (hbody : Block ts bodyPos body) :
      Statement (⟨.keyword .loop, pos⟩ :: ts) (.loop pos bodyPos body)
  /-- `if ::= 'if' '(' expr ')' block ('else' block)?` -/
  | ifThen {pos pos₁ ts condition pos₂ us thenPos thenBody} (hcondition : IsExpr ts condition)
      (hthen : Block us thenPos thenBody) :
      Statement (⟨.keyword .if_, pos⟩ :: ⟨.symbol .lparen, pos₁⟩ ::
        ts ++ ⟨.symbol .rparen, pos₂⟩ :: us) (.ifThen pos condition thenPos thenBody)
  | ifElse {pos pos₁ ts condition pos₂ us thenPos thenBody pos₃ vs elsePos elseBody}
      (hcondition : IsExpr ts condition) (hthen : Block us thenPos thenBody)
      (helse : Block vs elsePos elseBody) :
      Statement (⟨.keyword .if_, pos⟩ :: ⟨.symbol .lparen, pos₁⟩ ::
        ts ++ ⟨.symbol .rparen, pos₂⟩ :: us ++ ⟨.keyword .else_, pos₃⟩ :: vs)
        (.ifElse pos condition thenPos thenBody elsePos elseBody)
  | block {ts pos body} (hbody : Block ts pos body) : Statement ts (.block pos body)

/-- `block ::= '{' statement* '}'` -/
inductive Block : List Token → Position → List Stmt → Prop
  | mk {pos ts body pos'} (hbody : Statements ts body) :
      Block (⟨.symbol .lbrace, pos⟩ :: ts ++ [⟨.symbol .rbrace, pos'⟩]) pos body

/-- `statement*` -/
inductive Statements : List Token → List Stmt → Prop
  | nil : Statements [] []
  | cons {ts us st sts} (head : Statement ts st) (tail : Statements us sts) :
      Statements (ts ++ us) (st :: sts)

end

/-- `program ::= statement*` -/
def Derives (ts : List Token) (p : Program) : Prop := Statements ts p.statements

end Chipwright.Grammar
