import Attribution.Attribute.Equation
/-!
# Unreachable statements

Of a run of unreachable statements only the first is reported: the one whose
surroundings, and whose predecessor in a sequence, are reachable.
-/

namespace Attribution.Subject

open Equation

def beginsDeadCode (s : Subject) (id : NodeId) : Equation Bool := do
  match s.tree.parent? id with
  | none => return false
  | some above =>
    let n ← s.node id
    match n.kind with
    | .case _ | .catchClause _ | .finallyClause => return false
    | _ =>
      if ← read .reachable id then return false
      if !(← read .reachable above) then return false
      let parent ← s.node above
      if parent.kind.isSequence && 0 < n.index then read .reachable (← parent.child (n.index - 1))
      else return true

def unreachable (s : Subject) (id : NodeId) : Equation Bool := do
  let begins ← s.beginsDeadCode id
  if begins then
    let n ← s.node id
    reportOf ⟨.unreachableStatement, "unreachable statement", n.location⟩
  return begins

end Attribution.Subject
