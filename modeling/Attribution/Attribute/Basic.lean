import Attribution.Error
/-!
# Attributes

What is known of each node of a program tree. Constants are settled before the
flow of control, and the flow of control before exceptions.
-/

namespace Attribution

inductive Attribute where
  /-- Control may come to the node. -/
  | reachable
  /-- Control may leave the node at its end. -/
  | completes
  /-- Labels of the breaks inside the node that lead out of it. -/
  | breaks
  /-- Labels of the continues inside the node that lead out of it. -/
  | continues
  /-- Exceptions that may leave the node. -/
  | propagated
  /-- The value, if it is known before the program runs. -/
  | constant
  /-- The node begins a run of unreachable statements. -/
  | unreachable
  /-- Exceptions that the node raises by itself. -/
  | raised
  deriving DecidableEq, Repr

namespace Attribute

def all : List Attribute :=
  [.reachable, .completes, .breaks, .continues, .propagated, .constant, .unreachable, .raised]

/-- The position in `all`. -/
def rank : Attribute → Nat
  | .reachable => 0
  | .completes => 1
  | .breaks => 2
  | .continues => 3
  | .propagated => 4
  | .constant => 5
  | .unreachable => 6
  | .raised => 7

theorem rank_lt (a : Attribute) : a.rank < 8 := by
  cases a <;> decide

theorem rank_inj {a b : Attribute} (h : a.rank = b.rank) : a = b := by
  cases a <;> cases b <;> first | rfl | exact absurd h (by decide)

def title : Attribute → String
  | .reachable => "reachable"
  | .completes => "completes"
  | .breaks => "breaks"
  | .continues => "continues"
  | .propagated => "propagated"
  | .constant => "constant"
  | .unreachable => "unreachable"
  | .raised => "raised"

abbrev Value : Attribute → Type
  | .reachable | .completes | .unreachable => Bool
  | .breaks | .continues => LabelSet
  | .propagated | .raised => TypeSet
  | .constant => Option Const

def phase : Attribute → Phase
  | .constant => 0
  | .reachable | .completes | .breaks | .continues | .unreachable => 1
  | .propagated | .raised => 2

/-- The value that a reader inside a cycle sees. -/
def fallback : (a : Attribute) → a.Value
  | .reachable => true
  | .completes => true
  | .breaks => .empty
  | .continues => .empty
  | .propagated => .empty
  | .constant => none
  | .unreachable => false
  | .raised => .empty

/-- The value that stands where the equation failed. -/
def sentinel : (a : Attribute) → a.Value :=
  fallback

end Attribute

end Attribution
