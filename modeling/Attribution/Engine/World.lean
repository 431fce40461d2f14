import Attribution.Engine.Event
import Attribution.Engine.Scheduler
/-!
# The world of an evaluation

Everything that outlives a single evaluator: the schedulers of all sessions,
the cells, the environment of the bodies, and the journal of events. An entry
of the journal says which worker of a pool it comes from; `none` stands for the
caller's own evaluator. The latest entry comes first.
-/

namespace Attribution.Engine

structure World (S : Schema) where
  env : S.Env
  schedulers : Array (Scheduler S.Rule) := #[]
  cells : Store S := {}
  evaluators : Nat := 0
  journal : List (Option Nat × Event) := []
  /-- The cells that are held by other evaluators than the one that runs. -/
  elsewhere : S.Key → Bool := fun _ => false

namespace World

variable {S : Schema}

/-- The scheduler of a session; a dead one when there is no such session. -/
def scheduler (w : World S) (i : SchedulerId) : Scheduler S.Rule :=
  w.schedulers.getD i default

def modifyScheduler (w : World S) (i : SchedulerId)
    (f : Scheduler S.Rule → Scheduler S.Rule) : World S :=
  { w with schedulers := w.schedulers.modify i f }

def addScheduler (w : World S) (s : Scheduler S.Rule) : World S × SchedulerId :=
  ({ w with schedulers := w.schedulers.push s }, w.schedulers.size)

def note (w : World S) (origin : Option Nat) (e : Event) : World S :=
  { w with journal := (origin, e) :: w.journal }

def cell (w : World S) (c : S.Key) : Cell S c :=
  w.cells.get c

def modifyCell (w : World S) (c : S.Key) (f : Cell S c → Cell S c) : World S :=
  { w with cells := w.cells.modify c f }

def setValue (w : World S) (c : S.Key) (v : CellValue (S.Val c)) : World S :=
  w.modifyCell c fun cell => { cell with value := v }

def soften (w : World S) (origin : Option Nat) (c : S.Key) (v : S.Val c) : World S :=
  (w.setValue c (.soft v)).note origin (.softened (S.name c))

/-- The status of a unit in its own scheduler, if that is still alive. -/
def unitStatus? (w : World S) (u : WorkUnit S.Rule) : Option Status :=
  let s := w.scheduler u.home
  if s.live then s.status? u.id else none

def register (w : World S) (i : SchedulerId) (label : String) (phase : Option Phase)
    (rule : S.Rule) : World S × WorkUnit S.Rule :=
  let u := (w.scheduler i).nextUnit i label phase rule
  (w.modifyScheduler i fun s => s.register u, u)

/-- Makes a unit the resolver of a cell, which loses its value. -/
def resolveWith (w : World S) (c : S.Key) (u : WorkUnit S.Rule) : World S :=
  w.modifyCell c fun cell => { cell with value := .unset, resolver := some u }

def addHook (w : World S) (c : S.Key) (h : S.Hook) : World S :=
  w.modifyCell c fun cell => { cell with hooks := cell.hooks ++ [h] }

/-- Clears a cell. A resolver that has ended would not run again, so a new unit
with the same body takes its place. -/
def reset (w : World S) (origin : Option Nat) (c : S.Key) : World S :=
  let w := w.setValue c .unset
  let w := match (w.cell c).resolver with
    | none => w
    | some u =>
      if (w.unitStatus? u).any Status.isTerminal then
        let (w, renewed) := w.register u.home u.label u.phase u.rule
        w.modifyCell c fun cell => { cell with resolver := some renewed }
      else w
  w.note origin (.reset (S.name c))

end World

end Attribution.Engine
