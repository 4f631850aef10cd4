import Chipwright.Program.Tree

/-!
# Nodes of a program

The nodes of a program in the order in which a walk from the root meets them, each with
its depth.
-/
namespace Chipwright

inductive NodeKind
  | program
  | nameSlot
  | const
  | define
  | assign
  | block
  | function
  | call
  | loop
  | cond
  | read (property : String)
  | write (property : String)
  | yield
  | literal (value : Literal)
  | name (text : String)
  | slot (slot : Slot)
  | not
  | binary (op : BinaryOp)

structure Node where
  depth : Nat
  kind : NodeKind
  pos : Position

def Name.node (depth : Nat) (x : Name) : Node := ⟨depth, .name x.text, x.pos⟩

def Expr.nodes (depth : Nat) : Expr → List Node
  | literal pos value => [⟨depth, .literal value, pos⟩]
  | name x => [x.node depth]
  | not pos operand => ⟨depth, .not, pos⟩ :: operand.nodes (depth + 1)
  | binary op left right =>
    ⟨depth, .binary op, left.pos⟩ :: (left.nodes (depth + 1) ++ right.nodes (depth + 1))

def Device.node (depth : Nat) : Device → Node
  | direct pos slot => ⟨depth, .slot slot, pos⟩
  | named x => x.node depth

mutual

def Stmt.nodes (depth : Nat) : Stmt → List Node
  | .nameSlot pos slotPos slot name =>
    [⟨depth, .nameSlot, pos⟩, ⟨depth + 1, .slot slot, slotPos⟩, name.node (depth + 1)]
  | .const pos name valuePos value =>
    [⟨depth, .const, pos⟩, name.node (depth + 1), ⟨depth + 1, .literal value, valuePos⟩]
  | .define pos name value =>
    ⟨depth, .define, pos⟩ :: name.node (depth + 1) :: value.nodes (depth + 1)
  | .assign target value =>
    ⟨depth, .assign, target.pos⟩ :: target.node (depth + 1) :: value.nodes (depth + 1)
  | .block pos body => ⟨depth, .block, pos⟩ :: Stmt.nodesAll (depth + 1) body
  | .function pos name params bodyPos body =>
    ⟨depth, .function, pos⟩ :: name.node (depth + 1) ::
      (params.map (·.node (depth + 1)) ++
        ⟨depth + 1, .block, bodyPos⟩ :: Stmt.nodesAll (depth + 2) body)
  | .call callee args =>
    ⟨depth, .call, callee.pos⟩ :: callee.node (depth + 1) ::
      args.flatMap (·.nodes (depth + 1))
  | .loop pos bodyPos body =>
    ⟨depth, .loop, pos⟩ :: ⟨depth + 1, .block, bodyPos⟩ :: Stmt.nodesAll (depth + 2) body
  | .ifThen pos condition thenPos thenBody =>
    ⟨depth, .cond, pos⟩ :: (condition.nodes (depth + 1) ++
      ⟨depth + 1, .block, thenPos⟩ :: Stmt.nodesAll (depth + 2) thenBody)
  | .ifElse pos condition thenPos thenBody elsePos elseBody =>
    ⟨depth, .cond, pos⟩ :: (condition.nodes (depth + 1) ++
      ⟨depth + 1, .block, thenPos⟩ :: (Stmt.nodesAll (depth + 2) thenBody ++
        ⟨depth + 1, .block, elsePos⟩ :: Stmt.nodesAll (depth + 2) elseBody))
  | .read pos device property target =>
    [⟨depth, .read property, pos⟩, device.node (depth + 1), target.node (depth + 1)]
  | .write pos value device property =>
    ⟨depth, .write property, pos⟩ ::
      (value.nodes (depth + 1) ++ [device.node (depth + 1)])
  | .yield pos => [⟨depth, .yield, pos⟩]

def Stmt.nodesAll (depth : Nat) : List Stmt → List Node
  | [] => []
  | s :: ss => s.nodes depth ++ Stmt.nodesAll depth ss

end

def Program.nodes (p : Program) : List Node :=
  ⟨0, .program, .first⟩ :: Stmt.nodesAll 1 p.statements

/-- A walk that handles the nodes that `stop` picks and does not go below them. `below` is
the depth of a handled node while the walk is under it. -/
def Node.walk (stop : NodeKind → Bool) : Option Nat → List Node → List (Bool × Node)
  | _, [] => []
  | below, n :: ns =>
    if below.any (· < n.depth) then walk stop below ns
    else
      let handled := stop n.kind
      (handled, n) :: walk stop (if handled then some n.depth else none) ns

/-- The nodes that a walk from the root visits, each with whether it is handled there. -/
def Program.walk (stop : NodeKind → Bool) (p : Program) : List (Bool × Node) :=
  Node.walk stop none p.nodes

end Chipwright
