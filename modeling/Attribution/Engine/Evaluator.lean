import Attribution.Engine.Action
/-!
# Evaluators

One thread of evaluation, cut into steps. An evaluator has the stack of units
it runs, the levels that wait for an attempt to come back, the final values
still to be written, and the thing it does next. A step touches the shared
tables at most once, so evaluators may take turns after any step.
-/

namespace Attribution.Engine

variable {S : Schema} {α : Type}

/-- Code that runs: the body of a unit, or the caller's own action. -/
inductive Code (S : Schema) (α : Type) where
  | body (a : Action S (Except Error Unit))
  | top (a : Action S α)

/-- What happens when an attempt comes back, innermost level first. -/
inductive Level (S : Schema) (α : Type) where
  /-- A unit is running its body. -/
  | running
  /-- Code asked for a unit. -/
  | attempted (next : Except Error Attempt → Code S α)
  /-- Code reads a cell, whose resolver has the given label. -/
  | probed (c : S.Key) (resolver : String) (next : Except Error (Probe (S.Val c)) → Code S α)
  /-- A unit of a phase waits while a unit of an earlier phase is run. -/
  | helping (u : WorkUnit S.Rule) (phase : Phase) (helped : WorkUnit S.Rule) (earlier : Phase)

/-- A final value still to be written, or a hook still to be told of one. -/
inductive Write (S : Schema) where
  | force (c : S.Key) (v : S.Val c)
  | notify (c : S.Key) (h : S.Hook) (v : S.Val c)

inductive Focus (S : Schema) (α : Type) where
  | act (code : Code S α)
  /-- A unit is asked for. -/
  | enter (u : WorkUnit S.Rule)
  /-- A unit that runs elsewhere is waited for. -/
  | blocked (u : WorkUnit S.Rule)
  /-- A unit waits for the units of earlier phases. -/
  | barrier (u : WorkUnit S.Rule) (phase : Phase)
  /-- The body of the topmost unit has ended. -/
  | closing (result : Except Error Unit)
  /-- An attempt comes back. -/
  | answer (outcome : Except Error Attempt)
  | done (a : α)
  | crashed

structure Evaluator (S : Schema) (α : Type) where
  id : EvaluatorId
  home : SchedulerId
  worker : Option Nat := none
  frames : List (Frame S) := []
  levels : List (Level S α) := []
  writes : List (Write S) := []
  focus : Focus S α

namespace Evaluator

def reading (e : Evaluator S α) : List S.Key :=
  e.levels.filterMap fun
    | .probed c _ _ => some c
    | _ => none

/-- Whether the evaluator is in the middle of reading the cell, or has a frame
that filled it. -/
def holds (e : Evaluator S α) (c : S.Key) : Bool :=
  let same (d : S.Key) : Bool := S.order c d == .eq
  e.reading.any same || e.frames.any fun f => f.fills.any same

def view (w : World S) (e : Evaluator S α) : View S :=
  ⟨w, e.home, e.frames, fun c => e.holds c || w.elsewhere c⟩

def resume (e : Evaluator S α) (code : Code S α) : Evaluator S α :=
  { e with focus := .act code }

def reply (e : Evaluator S α) (outcome : Except Error Attempt) : Evaluator S α :=
  { e with focus := .answer outcome }

def crash (e : Evaluator S α) : Evaluator S α :=
  { e with focus := .crashed }

/-- What becomes of asking for a unit. -/
inductive Admission where
  /-- The unit is on the evaluator's own stack. -/
  | reentered (index : Nat)
  | unknown
  | settled (outcome : Attempt)
  | behind (phase : Phase)
  | tooDeep (limit : Nat)
  | granted
  /-- Whoever runs the unit waits, in the end, for this evaluator's own unit. -/
  | crossed (status : Status) (index : Nat)
  | busy

def admission (s : Scheduler S.Rule) (e : Evaluator S α) (u : WorkUnit S.Rule) : Admission :=
  match Frame.indexOf? u.id e.frames with
  | some index => .reentered index
  | none =>
    match s.status? u.id with
    | none => .unknown
    | some .success => .settled .success
    | some .fail => .settled .fail
    | some .new =>
      match u.phase.filter s.hasEarlier with
      | some phase => .behind phase
      | none => if s.limits.maxDepth ≤ e.frames.length then .tooDeep s.limits.maxDepth else .granted
    | some status =>
      match (s.waitsOn? e.id u.id).bind fun id => Frame.indexOf? id e.frames with
      | some index => .crossed status index
      | none => .busy

end Evaluator

end Attribution.Engine
