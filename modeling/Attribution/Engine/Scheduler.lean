import Attribution.Config
import Attribution.Engine.Registry
import Attribution.Engine.Roll
/-!
# Schedulers

The table that the evaluators of one session share: the status of every unit,
who runs it, who waits for it, and which phased units are still to finish. A
unit's number is its position in the table.
-/

namespace Attribution.Engine

structure Entry where
  status : Status
  owner : Option EvaluatorId := none
  deriving DecidableEq

/-- Where reports go: into the scheduler's own buffer, or to the environment. -/
inductive Reporter where
  | buffer
  | custom
  deriving DecidableEq

structure Scheduler (ρ : Type) where
  limits : Limits := {}
  reporter : Reporter := .buffer
  /-- A session that was dropped leaves its scheduler dead. -/
  live : Bool := true
  entries : Roll Entry := .empty
  phases : Registry ρ := {}
  /-- The unit that each blocked evaluator waits for. -/
  waiting : List (EvaluatorId × UnitId) := []
  buffer : Array Diagnostic := #[]

namespace Scheduler

variable {ρ : Type}

instance : Inhabited (Scheduler ρ) := ⟨{ live := false }⟩

def status? (s : Scheduler ρ) (id : UnitId) : Option Status :=
  (s.entries.get? id).map Entry.status

def owner? (s : Scheduler ρ) (id : UnitId) : Option EvaluatorId :=
  (s.entries.get? id).bind Entry.owner

def setStatus (s : Scheduler ρ) (id : UnitId) (status : Status) : Scheduler ρ :=
  { s with entries := s.entries.set id { status, owner := s.owner? id } }

def nextUnit (s : Scheduler ρ) (home : SchedulerId) (label : String) (phase : Option Phase)
    (rule : ρ) : WorkUnit ρ :=
  ⟨s.entries.size, label, phase, rule, home⟩

def register (s : Scheduler ρ) (u : WorkUnit ρ) : Scheduler ρ :=
  { s with entries := s.entries.push { status := .new }, phases := s.phases.register u }

def claim (s : Scheduler ρ) (id : UnitId) (owner : EvaluatorId) : Scheduler ρ :=
  { s with entries := s.entries.set id { status := .running, owner := some owner } }

/-- A run of a unit is over. A unit that has ended is no longer pending. -/
def settle (s : Scheduler ρ) (u : WorkUnit ρ) (status : Status) : Scheduler ρ :=
  let phases := if status.isTerminal then s.phases.settle u else s.phases
  { s with entries := s.entries.set u.id { status }, phases }

def hasEarlier (s : Scheduler ρ) (phase : Phase) : Bool :=
  s.phases.isBlocked phase

def earlierUnits (s : Scheduler ρ) (phase : Phase) : List (Phase × WorkUnit ρ) :=
  s.phases.blockers phase

/-- The phased units that have not ended. -/
def pending (s : Scheduler ρ) : List (Phase × WorkUnit ρ) :=
  s.phases.units

def pendingIn (s : Scheduler ρ) (phase : Phase) : Nat :=
  s.phases.countIn phase

def awaited? (s : Scheduler ρ) (e : EvaluatorId) : Option UnitId :=
  s.waiting.lookup e

def startWaiting (s : Scheduler ρ) (e : EvaluatorId) (id : UnitId) : Scheduler ρ :=
  { s with waiting := (e, id) :: s.waiting.filter fun (d, _) => d != e }

def stopWaiting (s : Scheduler ρ) (e : EvaluatorId) : Scheduler ρ :=
  { s with waiting := s.waiting.filter fun (d, _) => d != e }

/-- Follows, for a bounded number of turns, the unit to its owner and the owner
to the unit it waits for, until a unit of the evaluator `self` is met. -/
def chase (s : Scheduler ρ) (self : EvaluatorId) : Nat → UnitId → Option UnitId
  | 0, _ => none
  | turns + 1, id =>
    match s.owner? id with
    | none => none
    | some owner =>
      if owner = self then some id
      else match s.awaited? owner with
        | none => none
        | some next => s.chase self turns next

/-- The unit of `self` that whoever waits for `id` waits for in the end. -/
def waitsOn? (s : Scheduler ρ) (self : EvaluatorId) (id : UnitId) : Option UnitId :=
  s.chase self (s.waiting.length + 1) id

end Scheduler

end Attribution.Engine
