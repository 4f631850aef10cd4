import Mathlib.Logic.Relation
import Chipwright.Binding
import Chipwright.Program.Tree

/-!
# Lexical scoping

What the names of a program mean, read off the text alone: for every statement, the
definitions that are visible where it stands, scope by scope. Nothing fails here; a name
without a visible definition has no meaning, and the rules that a program has to keep are
stated apart, as `Program.LexicallyScoped`.

Names of devices, constants and functions are visible in the whole program. A variable is
visible from the end of its definition to the end of its block, and a parameter in the whole
body of its function. So a function sees the variables of the top level that are defined
before it.
-/
namespace Chipwright

/-! ### What stands in a statement -/

/-- What a name is used as. -/
inductive Role
  | value
  | target
  | callee
  | device

/-- What may be used so. -/
def Role.admits : Role → Binding → Bool
  | value, .var _ => true
  | value, .const _ => true
  | target, .var _ => true
  | callee, .func _ => true
  | device, .device _ => true
  | _, _ => false

structure Use where
  name : Name
  role : Role

/-- The names of an expression, from left to right. -/
def Expr.names : Expr → List Name
  | literal _ _ => []
  | name x => [x]
  | not _ operand => operand.names
  | binary _ left right => left.names ++ right.names

def Expr.uses (e : Expr) : List Use := e.names.map (⟨·, .value⟩)

def Device.uses : Device → List Use
  | direct _ _ => []
  | named x => [⟨x, .device⟩]

namespace Stmt

/-- The names that a statement uses, those of the statements inside it left out. -/
def uses : Stmt → List Use
  | define _ _ value => value.uses
  | assign target value => ⟨target, .target⟩ :: value.uses
  | call callee args => ⟨callee, .callee⟩ :: args.flatMap Expr.uses
  | ifThen _ condition _ _ => condition.uses
  | ifElse _ condition _ _ _ _ => condition.uses
  | read _ device _ target => device.uses ++ [⟨target, .target⟩]
  | write _ value device _ => value.uses ++ device.uses
  | _ => []

/-- The device properties that a statement names. -/
def properties : Stmt → List String
  | read _ _ property _ => [property]
  | write _ _ _ property => [property]
  | _ => []

/-- What a statement of the top level defines for the whole program. -/
def global? : Stmt → Option Binding
  | nameSlot _ _ slot x => some (.device ⟨x.text, x.pos, slot⟩)
  | const _ x _ value => some (.const ⟨x.text, x.pos, value⟩)
  | function _ x params _ _ => some (.func ⟨x.text, x.pos, params.length⟩)
  | _ => none

/-- The variable that a statement defines in its scope. -/
def let? : Stmt → Option Name
  | define _ x _ => some x
  | _ => none

/-- The variables that are defined directly in a block. -/
def lets (sts : List Stmt) : List String := sts.filterMap fun st => st.let?.map (·.text)

/-- The name that a statement of the top level adds to the root scope. -/
def rootName? (st : Stmt) : Option String := (st.global?.map (·.name)).or (st.let?.map (·.text))

/-- The names of each scope that a statement opens. -/
def scopes : Stmt → List (List String)
  | block _ body => [lets body]
  | function _ _ params _ body => [params.map (·.text) ++ lets body]
  | loop _ _ body => [lets body]
  | ifThen _ _ _ thenBody => [lets thenBody]
  | ifElse _ _ _ thenBody _ elseBody => [lets thenBody, lets elseBody]
  | _ => []

mutual

/-- How many variables and parameters a statement defines, those inside it counted. -/
def varCount : Stmt → Nat
  | define _ _ _ => 1
  | block _ body => varCountAll body
  | function _ _ params _ body => params.length + varCountAll body
  | loop _ _ body => varCountAll body
  | ifThen _ _ _ thenBody => varCountAll thenBody
  | ifElse _ _ _ thenBody _ elseBody => varCountAll thenBody + varCountAll elseBody
  | _ => 0

def varCountAll : List Stmt → Nat
  | [] => 0
  | st :: sts => st.varCount + varCountAll sts

end

end Stmt

/-! ### Places -/

/-- Where a statement stands. -/
structure Place where
  /-- The definitions of the innermost scope that are visible. -/
  inner : List (String × Binding)
  /-- Those of the enclosing scopes, from the inside out. -/
  outer : List (List (String × Binding))
  /-- The function around the place, if there is one. -/
  function : Option String
  /-- The number of variables that are defined before the place in the text. -/
  next : Nat

namespace Place

/-- The innermost visible definition of a name. -/
def lookup? (x : String) (σ : Place) : Option Binding :=
  (σ.inner :: σ.outer).findSome? (·.lookup x)

def isRoot (σ : Place) : Bool := σ.outer.isEmpty

/-- The names that the innermost scope defines before the place. -/
def names (σ : Place) : List String := σ.inner.map (·.1)

/-- The variable that a definition at the place defines. -/
def newVariable (x : Name) (σ : Place) : Variable :=
  ⟨σ.next, x.text, x.pos, σ.outer.length, σ.function⟩

/-- The place after the definition of a variable. -/
def define (x : Name) (σ : Place) : Place :=
  { σ with inner := σ.inner ++ [(x.text, .var (σ.newVariable x))], next := σ.next + 1 }

def newVariables : List Name → Place → List Variable
  | [], _ => []
  | x :: xs, σ => σ.newVariable x :: newVariables xs (σ.define x)

def defineAll : List Name → Place → Place
  | [], σ => σ
  | x :: xs, σ => defineAll xs (σ.define x)

/-- The start of a block. -/
def enter (σ : Place) : Place := { σ with inner := [], outer := σ.inner :: σ.outer }

/-- The start of a function, before its parameters. -/
def enterFunction (name : String) (σ : Place) : Place := { σ.enter with function := some name }

/-- The same place with more variables before it that are not visible. -/
def skip (n : Nat) (σ : Place) : Place := { σ with next := σ.next + n }

/-- The place after a statement. -/
def after (st : Stmt) (σ : Place) : Place :=
  match st.let? with
  | some x => σ.define x
  | none => σ.skip st.varCount

def afterAll : List Stmt → Place → Place
  | [], σ => σ
  | st :: sts, σ => afterAll sts (σ.after st)

end Place

/-- A statement and where it stands. -/
structure Placed where
  place : Place
  stmt : Stmt

namespace Stmt

mutual

/-- The statements inside a statement. -/
def inside (σ : Place) : Stmt → List Placed
  | block _ body => placed σ.enter body
  | function _ x params _ body => placed ((σ.enterFunction x.text).defineAll params) body
  | loop _ _ body => placed σ.enter body
  | ifThen _ _ _ thenBody => placed σ.enter thenBody
  | ifElse _ _ _ thenBody _ elseBody =>
    placed σ.enter thenBody ++ placed (σ.skip (varCountAll thenBody)).enter elseBody
  | _ => []

/-- The statements of a block that starts at a place, and those inside them. -/
def placed (σ : Place) : List Stmt → List Placed
  | [] => []
  | st :: sts => ⟨σ, st⟩ :: st.inside σ ++ placed (σ.after st) sts

end

end Stmt

namespace Program

/-- The start of the program: what the top level defines for all of it is visible. -/
def start (p : Program) : Place where
  inner := (p.statements.filterMap Stmt.global?).map fun b => (b.name, b)
  outer := []
  function := none
  next := 0

/-- All statements of a program, with their places. -/
def placed (p : Program) : List Placed := Stmt.placed p.start p.statements

/-- A call of the second function stands in the first one. -/
def Calls (p : Program) (caller callee : String) : Prop :=
  ∃ σ x args, ⟨σ, .call x args⟩ ∈ p.placed ∧ σ.function = some caller ∧ x.text = callee

end Program

/-! ### The rules -/

/-- The rules that a statement has to keep where it stands. -/
structure Placed.WellFormed (strict : Bool) (x : Placed) : Prop where
  /-- Devices, constants and functions are defined at the top level. -/
  root : x.stmt.global?.isSome = true → x.place.isRoot = true
  /-- No scope that the statement opens defines a name twice. -/
  distinct : ∀ names ∈ x.stmt.scopes, names.Nodup
  /-- The innermost visible definition of every name is of the kind that the use needs. -/
  uses : ∀ use ∈ x.stmt.uses,
    ∃ b, x.place.lookup? use.name.text = some b ∧ use.role.admits b = true
  /-- A call has as many arguments as the function has parameters. -/
  arity : ∀ callee args, x.stmt = .call callee args →
    ∀ f, x.place.lookup? callee.text = some (.func f) → args.length = f.arity
  /-- Properties are known ones, if they have to be. -/
  properties : strict = true → ∀ property ∈ x.stmt.properties, property ∈ knownProperties

/-- The rules of scoping. -/
structure Program.LexicallyScoped (strict : Bool) (p : Program) : Prop where
  statements : ∀ x ∈ p.placed, x.WellFormed strict
  /-- The root scope defines no name twice. -/
  distinct : (p.statements.filterMap Stmt.rootName?).Nodup
  /-- No function can call itself, directly or through others. -/
  acyclic : ∀ f, ¬ Relation.TransGen p.Calls f f

/-! ### Meanings -/

/-- What a statement defines. -/
def Stmt.definitions (σ : Place) : Stmt → List Binding
  | nameSlot _ _ slot x => [.device ⟨x.text, x.pos, slot⟩]
  | const _ x _ value => [.const ⟨x.text, x.pos, value⟩]
  | define _ x _ => [.var (σ.newVariable x)]
  | function _ x params _ _ =>
    .func ⟨x.text, x.pos, params.length⟩ ::
      ((σ.enterFunction x.text).newVariables params).map .var
  | _ => []

/-- What each name of a statement means: a name that is defined, its definition; a name that
is used, the innermost visible definition. -/
def Placed.meanings (x : Placed) : List (Position × Option Binding) :=
  (x.stmt.definitions x.place).map (fun b => (b.pos, some b)) ++
    x.stmt.uses.map fun use => (use.name.pos, x.place.lookup? use.name.text)

/-- What each name of a program means, in the order of the text. -/
def Program.meanings (p : Program) : List (Position × Option Binding) :=
  p.placed.flatMap Placed.meanings

end Chipwright
