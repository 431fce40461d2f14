import Attribution.Attribute.Equation
/-!
# Escaping jumps

The labels of the reachable jumps inside a statement that lead out of it. Loops,
switches and labeled statements absorb the jumps that are meant for them, and a
finalizer that does not complete absorbs all jumps but its own.
-/

namespace Attribution

inductive Jump where
  | break
  | continue
  deriving DecidableEq

namespace Jump

/-- The labels of the jumps of this kind that leave a node. -/
def escaping : Jump → NodeId → Equation LabelSet
  | .break, id => Equation.read .breaks id
  | .continue, id => Equation.read .continues id

end Jump

namespace Subject

open Equation

def escapingAny (j : Jump) (found : LabelSet) : List NodeId → Equation LabelSet
  | [] => .done found
  | id :: rest => do
    let more ← j.escaping id
    escapingAny j (found.union more) rest

/-- The label of a jump itself, if the jump is possible. -/
def jumpLabels (s : Subject) (id : NodeId) (n : Node) (label : Option String) :
    Equation LabelSet := do
  match s.tree.jump? id with
  | some (.error e) =>
    failWith ⟨.invalidJump, e.message, n.location⟩
    return .empty
  | some (.ok _) =>
    if ← read .reachable id then return .singleton (.ofLabel label) else return .empty
  | none => return .empty

/-- What is left of the labels that leave the parts of a node. -/
def absorb (s : Subject) (j : Jump) (id : NodeId) (n : Node) (labels : LabelSet) :
    Equation LabelSet :=
  match n.kind with
  | .whileLoop | .doWhile => .done (labels.without .unlabeled)
  | .switch =>
    match j with
    | .break => .done (labels.without .unlabeled)
    | .continue => .done labels
  | .labeled label => .done (labels.without (.named label))
  | .tryCatch => do
    match (← s.tryShape id).finalizer with
    | some finalizer => if ← read .completes finalizer then return labels else j.escaping finalizer
    | none => return labels
  | _ => .done labels

def escapes (s : Subject) (j : Jump) (id : NodeId) : Equation LabelSet := do
  let n ← s.node id
  match n.kind, j with
  | .breakTo label, .break => s.jumpLabels id n label
  | .continueTo label, .continue => s.jumpLabels id n label
  | .breakTo _, _ | .continueTo _, _ => return .empty
  | _, _ =>
    let labels ← escapingAny j .empty (s.tree.statements n)
    s.absorb j id n labels

end Subject

end Attribution
