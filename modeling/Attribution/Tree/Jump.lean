import Attribution.Tree.Outline
/-!
# Jump targets

A `break` or `continue` is resolved against the loops, switches and labeled
statements around it, innermost first.
-/

namespace Attribution

inductive JumpError where
  | breakOutside
  | continueOutside
  | undefinedLabel (label : String)
  | notALoop (label : String)
  deriving DecidableEq

namespace JumpError

def message : JumpError → String
  | .breakOutside => "break outside switch or loop"
  | .continueOutside => "continue outside of loop"
  | .undefinedLabel label => "undefined label: " ++ label
  | .notALoop label => "not a loop label: " ++ label

end JumpError

abbrev JumpTarget := Except JumpError NodeId

/-- A statement that a jump inside it may name: its node, its kind, and whether
its first child is a loop. -/
structure Scope where
  id : NodeId
  kind : NodeKind
  holdsLoop : Bool

namespace Scope

def isBreakable (s : Scope) : Bool :=
  s.kind.isLoop || s.kind == .switch

def isLabeled (label : String) (s : Scope) : Bool :=
  s.kind == .labeled label

end Scope

/-- The target of a jump among the scopes around it, innermost first. -/
def resolveJump (scopes : List Scope) : NodeKind → Option JumpTarget
  | .breakTo none =>
    some <| match scopes.find? Scope.isBreakable with
    | some s => .ok s.id
    | none => .error .breakOutside
  | .breakTo (some label) =>
    some <| match scopes.find? (Scope.isLabeled label) with
    | some s => .ok s.id
    | none => .error (.undefinedLabel label)
  | .continueTo none =>
    some <| match scopes.find? fun s => s.kind.isLoop with
    | some s => .ok s.id
    | none => .error .continueOutside
  | .continueTo (some label) =>
    some <| match scopes.find? (Scope.isLabeled label) with
    | some s => if s.holdsLoop then .ok s.id else .error (.notALoop label)
    | none => .error (.undefinedLabel label)
  | _ => none

namespace Outline

/-- The scopes around the children of a node. -/
def scopesWithin (scopes : List Scope) (id : NodeId) (o : Outline) : List Scope :=
  match o.kind with
  | .whileLoop | .doWhile | .switch | .labeled _ =>
    ⟨id, o.kind, o.children.head?.any fun c => c.kind.isLoop⟩ :: scopes
  | _ => scopes

mutual

/-- The jump target of every node, in preorder. -/
def jumps (scopes : List Scope) (id : NodeId) : Outline → List (Option JumpTarget)
  | .mk kind location children =>
    resolveJump scopes kind ::
      jumpsAll (scopesWithin scopes id (.mk kind location children)) (id + 1) children

def jumpsAll (scopes : List Scope) (id : NodeId) : List Outline → List (Option JumpTarget)
  | [] => []
  | o :: rest => o.jumps scopes id ++ jumpsAll scopes (id + o.size) rest

end

end Outline

end Attribution
