import Chipwright.Program.Tree

/-!
# Listing a program

A program as an indented outline, one statement a line, with every operation of an
expression in parentheses.
-/
namespace Chipwright

def Expr.text : Expr → String
  | literal _ value => value.text
  | name x => x.text
  | not _ operand => s!"(!{operand.text})"
  | binary op left right => s!"({left.text} {op.text} {right.text})"

/-- A line of an outline. -/
def outlineLine (depth : Nat) (text : String) : String :=
  String.join (List.replicate depth "  ") ++ text

mutual

def Stmt.outline (depth : Nat) : Stmt → List String
  | .nameSlot _ _ slot name => [outlineLine depth s!"Alias: {slot.name} as {name.text}"]
  | .const _ name _ value => [outlineLine depth s!"Const: {name.text} = {value.text}"]
  | .define _ name value => [outlineLine depth s!"Let: {name.text} = {value.text}"]
  | .assign target value => [outlineLine depth s!"Assign: {target.text} = {value.text}"]
  | .block _ body => outlineLine depth "Block" :: Stmt.outlines (depth + 1) body
  | .function _ name params _ body =>
    let list := ", ".intercalate (params.map (·.text))
    outlineLine depth s!"Function: {name.text}({list})" :: Stmt.outlines (depth + 1) body
  | .call callee args =>
    let list := ", ".intercalate (args.map (·.text))
    [outlineLine depth s!"Call: {callee.text}({list})"]
  | .loop _ _ body => outlineLine depth "Loop" :: Stmt.outlines (depth + 1) body
  | .ifThen _ condition _ body =>
    outlineLine depth s!"If ({condition.text})" :: outlineLine (depth + 1) "Then:" ::
      Stmt.outlines (depth + 2) body
  | .ifElse _ condition _ thenBody _ elseBody =>
    outlineLine depth s!"If ({condition.text})" :: outlineLine (depth + 1) "Then:" ::
      Stmt.outlines (depth + 2) thenBody ++
      outlineLine (depth + 1) "Else:" :: Stmt.outlines (depth + 2) elseBody
  | .read _ device property target =>
    [outlineLine depth s!"Read: {device.text}.{property} into {target.text}"]
  | .write _ value device property =>
    [outlineLine depth s!"Write: {value.text} into {device.text}.{property}"]
  | .yield _ => [outlineLine depth "Yield"]

def Stmt.outlines (depth : Nat) : List Stmt → List String
  | [] => []
  | s :: ss => s.outline depth ++ Stmt.outlines depth ss

end

def Program.outline (p : Program) : String :=
  "\n".intercalate ("Program" :: Stmt.outlines 1 p.statements)

end Chipwright
