import Attribution.Attribute.Equation
/-!
# Exceptions

What a node raises by itself and what leaves it. Unreachable nodes raise
nothing; handlers stop the types they name, with all special cases; a finalizer
that does not complete lets nothing past but its own exceptions.
-/

namespace Attribution.Subject

open Equation

def raised (s : Subject) (id : NodeId) : Equation TypeSet :=
  match s.rules.raised s.tree id with
  | .ok types => .done types
  | .error violation => do
    let n ← s.node id
    failWith ⟨.ruleViolation, violation.message, n.location⟩
    return .empty

def propagatedAny (found : TypeSet) : List NodeId → Equation TypeSet
  | [] => .done found
  | id :: rest => do
    let more ← read .propagated id
    propagatedAny (found.union more) rest

def isUncaught (s : Subject) (catches : List (NodeId × ExcType)) (type : ExcType) : Bool :=
  !catches.any fun (_, caught) => s.rules.isSubtype type caught

/-- The types that leave a try statement through its parts. -/
def leavingTry (s : Subject) (id : NodeId) : Equation TypeSet := do
  let parts ← s.tryShape id
  let thrown := (← read .propagated parts.body).retain (s.isUncaught parts.catches)
  let leaving ← propagatedAny thrown (parts.catches.map Prod.fst)
  match parts.finalizer with
  | none => return leaving
  | some finalizer =>
    let last ← read .propagated finalizer
    if ← read .completes finalizer then return leaving.union last else return last

def propagated (s : Subject) (id : NodeId) : Equation TypeSet := do
  if !(← read .reachable id) then return .empty
  let own ← read .raised id
  let n ← s.node id
  if n.kind = .tryCatch then return own.union (← s.leavingTry id)
  else propagatedAny own n.children

end Attribution.Subject
