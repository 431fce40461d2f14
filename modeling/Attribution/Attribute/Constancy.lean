import Attribution.Attribute.Equation
/-!
# Constant values

The value of an expression or declaration that is known before the program
runs. A constant that is defined in terms of itself has none, and the reader
that closes the circle reports it.
-/

namespace Attribution.Subject

open Engine Equation

/-- The declaration around a node, and otherwise the name that the node is. -/
def constantName (s : Subject) (id : NodeId) (n : Node) : String :=
  let declared (d : NodeId) : Option String :=
    match s.tree.node? d with
    | some ⟨.constDecl name, _, _, _, _⟩ => some name
    | _ => none
  match (s.tree.lineage id).findSome? declared, n.kind with
  | some name, _ => name
  | none, .name name => name
  | none, _ => "<expression>"

/-- The value of `dep`, as read by the node `id`. -/
def valueOf (s : Subject) (id : NodeId) (n : Node) (dep : NodeId) : Equation (Option Const) :=
  .probe .constant dep fun
    | .cyclic _ => do
      let message := "constant `" ++ s.constantName id n ++ "` is defined in terms of itself"
      failWith ⟨.cyclicDefinition, message, n.location⟩
      return none
    | .ready value | .failed value => .done value

def constant (s : Subject) (id : NodeId) : Equation (Option Const) := do
  let n ← s.node id
  match n.kind with
  | .bool b => return some (.bool b)
  | .int i => return some (.int i)
  | .constDecl _ =>
    match n.children.head? with
    | some init => s.valueOf id n init
    | none => return none
  | .name _ =>
    match s.tree.binding? id with
    | some declaration => s.valueOf id n declaration
    | none => return none
  | .unary op =>
    let value ← s.valueOf id n (← n.child 0)
    return value.bind op.fold?
  | .binary op =>
    let left ← s.valueOf id n (← n.child 0)
    let right ← s.valueOf id n (← n.child 1)
    match left, right with
    | some left, some right => return op.fold? left right
    | _, _ => return none
  | _ => return none

end Attribution.Subject
