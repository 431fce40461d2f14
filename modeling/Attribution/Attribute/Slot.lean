import Attribution.Attribute.Constancy
import Attribution.Attribute.DeadCode
import Attribution.Attribute.Escape
import Attribution.Attribute.Exception
import Attribution.Attribute.Reachability
import Attribution.Engine.Pool
import Std.Data.TreeMap
/-!
# Attributes in cells

Each attribute of each node has one slot. A slot is taken the first time that
somebody asks for it, by a cell whose resolver solves the attribute's equation.
A slot may also be taken by a word that has nothing to do with the attribute;
whoever asks for one family where the other is stored gets an error.
-/

namespace Attribution

open Engine

/-- What is stored in the slot of an attribute. -/
inductive Family where
  | standard (a : Attribute)
  | word (a : Attribute)
  deriving DecidableEq

namespace Family

def attr : Family → Attribute
  | .standard a | .word a => a

def rank : Family → Nat
  | .standard a => a.rank
  | .word a => 8 + a.rank

theorem rank_lt (f : Family) : f.rank < 16 := by
  cases f with
  | standard a => have := a.rank_lt; simp only [rank]; omega
  | word a => have := a.rank_lt; simp only [rank]; omega

theorem rank_inj {f g : Family} (h : f.rank = g.rank) : f = g := by
  cases f with
  | standard a =>
    cases g with
    | standard b => rw [Attribute.rank_inj h]
    | word b => have := a.rank_lt; simp only [rank] at h; omega
  | word a =>
    cases g with
    | standard b => have := b.rank_lt; simp only [rank] at h; omega
    | word b => rw [Attribute.rank_inj (Nat.add_left_cancel h)]

abbrev Value : Family → Type
  | .standard a => a.Value
  | .word _ => UInt32

def fallback : (f : Family) → f.Value
  | .standard a => a.fallback
  | .word _ => (0 : UInt32)

def sentinel : (f : Family) → f.Value
  | .standard a => a.sentinel
  | .word _ => (0 : UInt32)

def phase : Family → Option Phase
  | .standard a => some a.phase
  | .word _ => none

end Family

structure CellKey where
  family : Family
  node : NodeId
  deriving DecidableEq

namespace CellKey

def index (c : CellKey) : Nat :=
  16 * c.node + c.family.rank

theorem index_div (c : CellKey) : c.index / 16 = c.node := by
  have := c.family.rank_lt
  simp only [index]
  omega

theorem index_inj {c d : CellKey} (h : c.index = d.index) : c = d := by
  have hnode : c.node = d.node := by rw [← index_div c, ← index_div d, h]
  have hfamily : c.family = d.family := by
    apply Family.rank_inj
    simp only [index, hnode] at h
    exact Nat.add_left_cancel h
  obtain ⟨f, n⟩ := c
  obtain ⟨g, m⟩ := d
  simp only at hnode hfamily
  rw [hnode, hfamily]

def order : CellKey → CellKey → Ordering :=
  compareOn index

instance : Std.TransCmp order :=
  inferInstanceAs (Std.TransCmp (compareOn index))

instance : Std.LawfulEqCmp order where
  eq_of_compare h := index_inj (Std.LawfulEqOrd.eq_of_compare h)

def label (c : CellKey) : String :=
  c.family.attr.title ++ "#" ++ toString c.node

end CellKey

/-- What the equations share besides cells: which slots are taken, by what;
whether the analysis has been given up; and which hooks were called with what,
the latest first. -/
structure Slots where
  taken : Std.TreeMap Nat Family := {}
  detached : Bool := false
  calls : List (String × (c : CellKey) × c.family.Value) := []

namespace Slots

/-- Slots are numbered by node, then by attribute. -/
def number (a : Attribute) (id : NodeId) : Nat :=
  8 * id + a.rank

def family? (s : Slots) (a : Attribute) (id : NodeId) : Option Family :=
  s.taken[number a id]?

def take (s : Slots) (c : CellKey) : Slots :=
  { s with taken := s.taken.insert (number c.family.attr c.node) c.family }

end Slots

namespace Attribute

def schema : Schema where
  Key := CellKey
  Val c := c.family.Value
  order := CellKey.order
  name := CellKey.label
  fallback c := c.family.fallback
  sentinel c := c.family.sentinel
  Rule := CellKey
  Hook := String
  Env := Slots

end Attribute

abbrev Eval := ExceptT Error (Action Attribute.schema)

namespace Eval

def ask (r : Request Attribute.schema) : Eval r.Answer :=
  liftM (Action.request r : Action Attribute.schema r.Answer)

def slots : Eval Slots :=
  ask (.env id)

def observe {α : Type} (x : Eval α) : Eval (Except Error α) :=
  ExceptT.mk (Except.ok <$> x.run)

end Eval

namespace Subject

/-- Makes sure that the slot of a node holds a cell of the given family. -/
def occupy (s : Subject) (c : CellKey) : Eval Unit := do
  if (s.tree.node? c.node).isNone then throw (.unknownNode c.node)
  match (← Eval.slots).family? c.family.attr c.node with
  | some f => if f = c.family then return else throw (.typeMismatch c.family.attr.title c.node)
  | none =>
    discard <| Eval.ask (.env fun slots => slots.take c)
    discard <| (liftM (Action.setRule c c.label c.family.phase c :
      Action Attribute.schema (WorkUnit CellKey)) : Eval (WorkUnit CellKey))

/-- Reads a cell, which is created first if need be. -/
def probeCell (s : Subject) (c : CellKey) : Eval (Probe c.family.Value) := do
  s.occupy c
  liftExcept (← Eval.ask (.probe c))

def probe (s : Subject) (a : Attribute) (id : NodeId) : Eval (Probe a.Value) :=
  s.probeCell ⟨.standard a, id⟩

def read (s : Subject) (a : Attribute) (id : NodeId) : Eval a.Value := do
  return (← s.probe a id).value

/-- Solves an equation by reading what it reads. -/
def solve {α : Type} (s : Subject) : Equation α → Eval α
  | .done a => pure a
  | .probe a id next => do s.solve (next (← s.probe a id))
  | .fail d next => do
    Eval.ask (.fail d)
    s.solve next
  | .report d next => do
    Eval.ask (.report d)
    s.solve next
  | .stop e => throw e
  | .malformed => do
    Eval.ask .crash
    throw (.detached "")

def equation (s : Subject) : (a : Attribute) → NodeId → Equation a.Value
  | .reachable => s.reachable
  | .completes => s.completes
  | .breaks => s.escapes .break
  | .continues => s.escapes .continue
  | .propagated => s.propagated
  | .constant => s.constant
  | .unreachable => s.unreachable
  | .raised => s.raised

/-- The value of a cell of either family. -/
def cellEquation (s : Subject) : (c : CellKey) → Equation c.family.Value
  | ⟨.standard a, id⟩ => s.equation a id
  | ⟨.word _, _⟩ => .done (1 : UInt32)

/-- The body of a cell's resolver. -/
def resolve (s : Subject) (c : CellKey) : Eval Unit := do
  if (← Eval.slots).detached then throw (.detached c.label)
  let v ← s.solve (s.cellEquation c)
  liftM (Action.deliver c v : Action Attribute.schema Unit)

def model (s : Subject) : Model Attribute.schema where
  body c := (s.resolve c).run
  react c tag v slots := ({ slots with calls := (tag, ⟨c, v⟩) :: slots.calls }, none)
  receive _ slots := slots

end Subject

end Attribution
