import Attribution.Tree
/-!
# Exception rules

What a single node raises, and which exception types are special cases of
others. Types form a hierarchy of single parents; functions declare what they
raise. Strict rules reject functions and types that nobody declared.
-/

namespace Attribution

inductive Violation where
  | unknownCallee (callee : String)
  | unknownType (type : ExcType)
  deriving DecidableEq

namespace Violation

def message : Violation → String
  | .unknownCallee callee => "cannot find function `" ++ callee ++ "`"
  | .unknownType type => "`" ++ type.name ++ "` is not a known exception type"

end Violation

/-- What equations ask about exceptions: what a node raises by itself, and whether
every exception of one type is also one of another. -/
structure RuleProvider where
  raised : Tree → NodeId → Except Violation TypeSet
  isSubtype : ExcType → ExcType → Bool

structure Rules where
  /-- Declared types with their direct parents, the latest declaration first. -/
  types : List (ExcType × Option ExcType) := []
  /-- Declared functions with what they raise, the latest declaration first. -/
  functions : List (String × List ExcType) := []
  strict : Bool := false

namespace Rules

def declareType (r : Rules) (type : ExcType) (parent : Option ExcType) : Rules :=
  { r with types := (type, parent) :: r.types }

def declareFunction (r : Rules) (name : String) (raises : List ExcType) : Rules :=
  { r with functions := (name, raises) :: r.functions }

/-- The direct parent of a type, by its latest declaration. -/
def parent? (r : Rules) (type : ExcType) : Option ExcType :=
  (r.types.lookup type).join

def requireDeclared (r : Rules) (type : ExcType) : Except Violation Unit :=
  if r.strict && (r.types.lookup type).isNone then .error (.unknownType type) else .ok ()

def raisedBy (r : Rules) : NodeKind → Except Violation TypeSet
  | .throws type => (r.requireDeclared type).map fun _ => .singleton type
  | .catchClause type => (r.requireDeclared type).map fun _ => .empty
  | .call callee =>
    match r.functions.lookup callee with
    | some raises => .ok (.ofList raises)
    | none => if r.strict then .error (.unknownCallee callee) else .ok .empty
  | _ => .ok .empty

/-- What a node raises by itself; a node outside the tree raises nothing. -/
def raised (r : Rules) (t : Tree) (id : NodeId) : Except Violation TypeSet :=
  match t.node? id with
  | some n => r.raisedBy n.kind
  | none => .ok .empty

theorem parent?_eq_some_iff {r : Rules} {type parent : ExcType} :
    r.parent? type = some parent ↔ r.types.lookup type = some (some parent) :=
  Option.join_eq_some_iff

/-- The declarations of types that a walk has not seen yet. -/
def unseen (r : Rules) (seen : List ExcType) : List (ExcType × Option ExcType) :=
  r.types.filter fun d => d.1 ∉ seen

theorem length_unseen_lt {r : Rules} {seen : List ExcType} {type parent : ExcType}
    (h : r.parent? type = some parent) (hseen : type ∉ seen) :
    (r.unseen (type :: seen)).length < (r.unseen seen).length := by
  obtain ⟨before, after, htypes, -⟩ := List.lookup_eq_some_iff.1 (parent?_eq_some_iff.1 h)
  have hsplit : r.unseen (type :: seen) = (r.unseen seen).filter fun d => d.1 ≠ type := by
    simp [unseen, List.filter_filter]
  rw [hsplit, List.length_filter_lt_length_iff_exists]
  exact ⟨(type, some parent), by simp [unseen, htypes, hseen], by simp⟩

/-- Walks up the parents from `type`. A type that was seen before ends the walk, so
each step leaves fewer declarations to come to. -/
@[semireducible]
def reaches (r : Rules) (goal : ExcType) (seen : List ExcType) (type : ExcType) : Bool :=
  if type = goal then true
  else if hseen : type ∈ seen then false
  else match h : r.parent? type with
    | some parent =>
      have := length_unseen_lt h hseen
      r.reaches goal (type :: seen) parent
    | none => false
termination_by (r.unseen seen).length

/-- Whether every `sub` is also a `sup`. -/
def isSubtype (r : Rules) (sub sup : ExcType) : Bool :=
  r.reaches sup [] sub

/-- The answers that follow from the declarations. -/
def provider (r : Rules) : RuleProvider where
  raised := r.raised
  isSubtype := r.isSubtype

instance : Coe Rules RuleProvider := ⟨provider⟩

instance : EmptyCollection RuleProvider := ⟨provider {}⟩

end Rules

end Attribution
