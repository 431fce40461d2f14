import Attribution.Error
import Std.Data.DTreeMap
/-!
# Cells and units

A cell holds one value that is computed on demand; a unit is a computation
that fills cells. What cells and units there are is left to a `Schema`: how
cells are addressed, what values they hold, how the bodies of units are named,
what hooks may observe a cell, and what else the bodies may read and write.
-/

namespace Attribution.Engine

abbrev SchedulerId := Nat

abbrev EvaluatorId := Nat

/-- The life of a unit. A unit that was entered again from its own body is
running recursively; a unit that has reported a failure will fail. -/
inductive Status where
  | new
  | running
  | runningRecursive
  | runningWillFail
  | success
  | fail
  deriving DecidableEq, Repr

namespace Status

def isTerminal : Status → Bool
  | .success | .fail => true
  | _ => false

def isRunning : Status → Bool
  | .running | .runningRecursive | .runningWillFail => true
  | _ => false

def name : Status → String
  | .new => "new"
  | .running => "running"
  | .runningRecursive => "running-recursive"
  | .runningWillFail => "running-will-fail"
  | .success => "success"
  | .fail => "fail"

end Status

/-- The outcome of asking for a unit. It is provisional when the unit took part
in a cycle and will run again, a cycle when the unit is already on the stack,
and failing when it is there and has reported a failure. -/
inductive Attempt where
  | success
  | fail
  | provisional
  | cycle
  | failing
  deriving DecidableEq, Repr

/-- A computation known to a scheduler. Its status is kept there; `home` is the
scheduler that it was registered with, and `rule` names its body. -/
structure WorkUnit (ρ : Type) where
  id : UnitId
  label : String
  phase : Option Phase
  rule : ρ
  home : SchedulerId

/-- The content of a cell: a soft value came out of a cycle and may change. -/
inductive CellValue (α : Type) where
  | unset
  | soft (v : α)
  | forced (v : α)
  deriving DecidableEq

namespace CellValue

variable {α : Type}

def value? : CellValue α → Option α
  | .unset => none
  | .soft v | .forced v => some v

def isForced : CellValue α → Bool
  | .forced _ => true
  | _ => false

def isSoft : CellValue α → Bool
  | .soft _ => true
  | _ => false

def softened : CellValue α → CellValue α
  | .forced v => .soft v
  | other => other

end CellValue

/-- What reading a cell gives, and how the value came about. -/
inductive Probe (α : Type) where
  | ready (v : α)
  | cyclic (v : α)
  | failed (v : α)
  deriving DecidableEq

namespace Probe

variable {α : Type}

def value : Probe α → α
  | .ready v | .cyclic v | .failed v => v

def isCyclic : Probe α → Bool
  | .cyclic _ => true
  | _ => false

end Probe

/-- What an evaluation is about. Cells are addressed by keys, and a key fixes
the cell's name, the value seen by readers inside a cycle, and the value left
behind by a failure. -/
structure Schema where
  Key : Type
  Val : Key → Type
  order : Key → Key → Ordering
  name : Key → String
  fallback : (c : Key) → Val c
  sentinel : (c : Key) → Val c
  Rule : Type
  Hook : Type
  Env : Type
  [orderTrans : Std.TransCmp order]
  [orderLawful : Std.LawfulEqCmp order]

attribute [instance] Schema.orderTrans Schema.orderLawful

structure Cell (S : Schema) (c : S.Key) where
  value : CellValue (S.Val c) := .unset
  resolver : Option (WorkUnit S.Rule) := none
  hooks : List S.Hook := []

/-- All cells. A cell that was never written is unset and has no resolver. -/
structure Store (S : Schema) where
  cells : Std.DTreeMap S.Key (Cell S) S.order := {}

namespace Store

variable {S : Schema}

def get (s : Store S) (c : S.Key) : Cell S c :=
  (s.cells.get? c).getD {}

def set (s : Store S) (c : S.Key) (cell : Cell S c) : Store S :=
  ⟨s.cells.insert c cell⟩

def modify (s : Store S) (c : S.Key) (f : Cell S c → Cell S c) : Store S :=
  s.set c (f (s.get c))

@[simp] theorem get_set_self (s : Store S) (c : S.Key) (cell : Cell S c) :
    (s.set c cell).get c = cell := by
  simp [get, set]

theorem get_set_ne (s : Store S) {c d : S.Key} (cell : Cell S c) (h : c ≠ d) :
    (s.set c cell).get d = s.get d := by
  have hne : S.order c d ≠ .eq := fun heq => h (Std.LawfulEqCmp.eq_of_compare heq)
  simp [get, set, Std.DTreeMap.get?_insert, hne]

end Store

end Attribution.Engine
