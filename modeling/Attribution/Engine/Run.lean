import Attribution.Engine.Step
/-!
# Runs

A single evaluator that takes steps until there is none left to take. Bodies
may register units and clear cells, so an evaluation need not come to an end;
a run therefore has a limit on its steps.
-/

namespace Attribution.Engine

variable {S : Schema} {α : Type}

namespace Evaluator

/-- At most `limit` steps. -/
def run (m : Model S) : Nat → World S → Evaluator S α → World S × Evaluator S α
  | 0, w, e => (w, e)
  | limit + 1, w, e =>
    match e.step m 0 w with
    | some (w, e) => run m limit w e
    | none => (w, e)

def result? (e : Evaluator S α) : Option α :=
  match e.focus with
  | .done a => some a
  | _ => none

end Evaluator

namespace World

def evaluator (w : World S) (home : SchedulerId) (worker : Option Nat) (focus : Focus S α) :
    World S × Evaluator S α :=
  ({ w with evaluators := w.evaluators + 1 }, { id := w.evaluators, home, worker, focus })

/-- Runs an action to its end. There is no result if it crashed, waits for
something that nobody does, or took too many steps. -/
def perform (m : Model S) (limit : Nat) (w : World S) (home : SchedulerId) (a : Action S α) :
    World S × Option α :=
  let (w, e) := w.evaluator home none (.act (.top a))
  let (w, e) := e.run m limit w
  (w, e.result?)

/-- The events that the caller's own evaluators caused, as lines of text. -/
def trace (w : World S) (log : LogConfig) : List String :=
  w.journal.reverse.filterMap fun (origin, e) =>
    if origin.isNone && e.isShown log then some e.text else none

def clearJournal (w : World S) : World S :=
  { w with journal := [] }

end World

end Attribution.Engine
