import Attribution.Attribute.Equation
/-!
# Reachability and completion

A statement is reachable when the statement before it completes, or, for the
first of a sequence, when the statement around it is reachable. A statement
completes when control may go past its end.
-/

namespace Attribution.Subject

open Equation

def reachable (s : Subject) (id : NodeId) : Equation Bool := do
  match s.tree.parent? id with
  | none => return true
  | some above =>
    let index := (← s.node id).index
    let parent ← s.node above
    if parent.kind.isSequence && 0 < index then
      read .completes (← parent.child (index - 1))
    else if parent.kind = .whileLoop && index = 1 then
      if ← read .reachable above then
        return (← read .constant (← parent.child 0)) != some (.bool false)
      else return false
    else read .reachable above

def breaksFree (id : NodeId) : Equation Bool := do
  return (← read .breaks id).contains .unlabeled

/-- Whether one of the cases is left by a break without label. -/
def anyBreaks : List NodeId → Equation Bool
  | [] => .done false
  | id :: rest => do if ← breaksFree id then return true else anyBreaks rest

/-- Whether one of the handlers completes; each of them is asked. -/
def anyCompletes (normal : Bool) : List (NodeId × ExcType) → Equation Bool
  | [] => .done normal
  | (id, _) :: rest => do
    let completes ← read .completes id
    anyCompletes (normal || completes) rest

/-- The label of a statement that is all there is to a labeled one. -/
def labelAround (s : Subject) (id : NodeId) : Equation (Option String) :=
  match s.tree.parent? id with
  | none => .done none
  | some above => do
    match (← s.node above).kind with
    | .labeled label => return some label
    | _ => return none

def completesDoWhile (s : Subject) (id : NodeId) (n : Node) : Equation Bool := do
  let body ← n.child 0
  let cond ← n.child 1
  let continues ← read .continues body
  let label ← s.labelAround id
  let continued := continues.contains .unlabeled ||
    label.any fun label => continues.contains (.named label)
  let tested ← if ← read .completes body then pure true else pure continued
  if tested then
    if (← read .constant cond) != some (.bool true) then return true
  breaksFree body

def completesSwitch (s : Subject) (id : NodeId) (n : Node) : Equation Bool :=
  match n.children with
  | [] => .malformed
  | _ :: cases => do
    let isDefault (c : NodeId) : Bool := (s.tree.node? c).any fun n => n.kind = .case true
    match cases.getLast?.filter fun _ => cases.any isDefault with
    | none => read .reachable id
    | some last => if ← read .completes last then return true else anyBreaks cases

def completesTry (s : Subject) (id : NodeId) : Equation Bool := do
  let parts ← s.tryShape id
  let normal ← anyCompletes (← read .completes parts.body) parts.catches
  match parts.finalizer with
  | some finalizer => if normal then read .completes finalizer else return false
  | none => return normal

def completes (s : Subject) (id : NodeId) : Equation Bool := do
  let n ← s.node id
  match n.kind with
  | .breakTo _ | .continueTo _ | .returns | .throws _ => return false
  | .block | .case _ | .catchClause _ | .finallyClause =>
    match n.children.getLast? with
    | some last => read .completes last
    | none => read .reachable id
  | .ifThen =>
    match n.children[2]? with
    | some no => if ← read .completes (← n.child 1) then return true else read .completes no
    | none => read .reachable id
  | .whileLoop =>
    if !(← read .reachable id) then return false
    else if (← read .constant (← n.child 0)) != some (.bool true) then return true
    else breaksFree (← n.child 1)
  | .doWhile => s.completesDoWhile id n
  | .labeled label =>
    let body ← n.child 0
    if ← read .completes body then return true
    else return (← read .breaks body).contains (.named label)
  | .switch => s.completesSwitch id n
  | .tryCatch => s.completesTry id
  | _ => read .reachable id

end Attribution.Subject
