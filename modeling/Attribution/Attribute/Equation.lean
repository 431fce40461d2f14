import Attribution.Attribute.Basic
import Attribution.Engine.Schema
import Attribution.Rules
/-!
# Equations

An equation says how an attribute of a node follows from other attributes. It
is a script of reads: which attribute is read next depends on what was read so
far, and so does the result. An equation may also report what is wrong with the
program.
-/

namespace Attribution

open Engine

inductive Equation (α : Type) where
  | done (a : α)
  /-- Reads an attribute; an error in reading it ends the equation. -/
  | probe (a : Attribute) (id : NodeId) (next : Probe a.Value → Equation α)
  /-- The program is wrong here and the attribute has no value. -/
  | fail (d : Diagnostic) (next : Equation α)
  /-- The program is wrong here, which does not affect the attribute. -/
  | report (d : Diagnostic) (next : Equation α)
  | stop (e : Error)
  /-- A child is missing that nodes of this kind always have. -/
  | malformed

namespace Equation

variable {α β : Type}

protected def bind : Equation α → (α → Equation β) → Equation β
  | .done a, f => f a
  | .probe a id next, f => .probe a id fun p => (next p).bind f
  | .fail d next, f => .fail d (next.bind f)
  | .report d next, f => .report d (next.bind f)
  | .stop e, _ => .stop e
  | .malformed, _ => .malformed

instance : Monad Equation where
  pure := .done
  bind := Equation.bind

/-- The value of an attribute, however it came about. -/
def read (a : Attribute) (id : NodeId) : Equation a.Value :=
  .probe a id fun p => .done p.value

def failWith (d : Diagnostic) : Equation Unit :=
  .fail d (.done ())

def reportOf (d : Diagnostic) : Equation Unit :=
  .report d (.done ())

end Equation

/-- What is analysed: a program and the rules it has to keep. -/
structure Subject where
  tree : Tree
  rules : RuleProvider

namespace Subject

def node (s : Subject) (id : NodeId) : Equation Node :=
  match s.tree.node? id with
  | some n => .done n
  | none => .stop (.unknownNode id)

structure TryShape where
  body : NodeId
  catches : List (NodeId × ExcType)
  finalizer : Option NodeId

/-- Sorts the later children of a try statement into handlers and finalizer. -/
def tryClauses (s : Subject) : List NodeId → Equation (List (NodeId × ExcType) × Option NodeId)
  | [] => .done ([], none)
  | id :: rest => do
    let n ← s.node id
    let (catches, finalizer) ← s.tryClauses rest
    match n.kind with
    | .catchClause type => return ((id, type) :: catches, finalizer)
    | .finallyClause => return (catches, finalizer <|> some id)
    | _ => return (catches, finalizer)

def tryShape (s : Subject) (id : NodeId) : Equation TryShape := do
  match (← s.node id).children with
  | [] => .stop (.unknownNode id)
  | body :: rest =>
    let (catches, finalizer) ← s.tryClauses rest
    return ⟨body, catches, finalizer⟩

end Subject

namespace Node

/-- A child that nodes of this kind always have. -/
def child (n : Node) (i : Nat) : Equation NodeId :=
  match n.children[i]? with
  | some id => .done id
  | none => .malformed

end Node

end Attribution
