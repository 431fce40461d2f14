import Attribution.Proofs.Engine.Solo
/-!
# Duties

What a worker of a pool does in one step is a `Duty`: it looks for a failure, takes a job, works
on it, and either counts it or records its error. `Duty.Does` is the table of what a duty changes
for the pool. `Duty.Drives` says what becomes of the worker's evaluator and of the world: only
work changes the world, and it is a step of the evaluator.
-/

namespace Attribution.Engine

variable {S : Schema}

namespace WorkerState

def load : WorkerState → Nat
  | .busy => 1
  | _ => 0

def hand : WorkerState → Nat
  | .picking => 1
  | _ => 0

/-- How far the worker is from the end; a job in the queue is worth 3. -/
def weight : WorkerState → Nat
  | .busy => 3
  | .ready => 2
  | .picking => 1
  | .stopped | .crashed => 0

theorem hand_le_one (s : WorkerState) : s.hand ≤ 1 := by
  cases s <;> decide

end WorkerState

inductive Duty (S : Schema) where
  /-- It looks whether a job has failed. -/
  | look
  | take (job : Job S)
  /-- It finds no job to take. -/
  | quit
  | work
  | finish
  /-- Its job has failed, which it records. -/
  | fail (error : Error)
  | crash

/-- What a worker sees of its pool and of itself. -/
structure Desk (S : Schema) where
  queue : List (Job S)
  failure : Option Error
  state : WorkerState
  completed : Nat

namespace Duty

def job? : Duty S → Option (Job S)
  | .take job => some job
  | _ => none

def error? : Duty S → Option Error
  | .fail error => some error
  | _ => none

inductive Does : Duty S → Desk S → Desk S → Prop where
  | look (queue : List (Job S)) (k : Nat) :
    Does .look ⟨queue, none, .ready, k⟩ ⟨queue, none, .picking, k⟩
  | heed (queue : List (Job S)) (error : Error) (k : Nat) :
    Does .look ⟨queue, some error, .ready, k⟩ ⟨queue, some error, .stopped, k⟩
  | take (job : Job S) (queue : List (Job S)) (failure : Option Error) (k : Nat) :
    Does (.take job) ⟨job :: queue, failure, .picking, k⟩ ⟨queue, failure, .busy, k⟩
  | quit (failure : Option Error) (k : Nat) :
    Does .quit ⟨[], failure, .picking, k⟩ ⟨[], failure, .stopped, k⟩
  | work (queue : List (Job S)) (failure : Option Error) (k : Nat) :
    Does .work ⟨queue, failure, .busy, k⟩ ⟨queue, failure, .busy, k⟩
  | finish (queue : List (Job S)) (failure : Option Error) (k : Nat) :
    Does .finish ⟨queue, failure, .busy, k⟩ ⟨queue, failure, .ready, k + 1⟩
  | fail (error : Error) (queue : List (Job S)) (failure : Option Error) (k : Nat) :
    Does (.fail error) ⟨queue, failure, .busy, k⟩ ⟨queue, failure <|> some error, .stopped, k⟩
  | crash (queue : List (Job S)) (failure : Option Error) (k : Nat) :
    Does .crash ⟨queue, failure, .busy, k⟩ ⟨queue, failure, .crashed, k⟩

/-- What a duty does to the world and to the worker's evaluator. -/
inductive Drives (m : Model S) (elsewhere : S.Key → Bool) : Duty S →
    World S → Evaluator S (Except Error Unit) → World S → Evaluator S (Except Error Unit) → Prop where
  | look (w : World S) (e : Evaluator S (Except Error Unit)) : Drives m elsewhere .look w e w e
  | take (job : Job S) (w : World S) (e : Evaluator S (Except Error Unit)) :
    Drives m elsewhere (.take job) w e w (e.resume (.top job.action))
  | quit (w : World S) (e : Evaluator S (Except Error Unit)) : Drives m elsewhere .quit w e w e
  | work {w w' : World S} {e e' : Evaluator S (Except Error Unit)} (pick : Nat)
    (h : e.step m pick { w with elsewhere } = some (w', e')) :
    Drives m elsewhere .work w e { w' with elsewhere := fun _ => false } e'
  | finish {w : World S} {e : Evaluator S (Except Error Unit)} (h : e.Gave (.ok ())) :
    Drives m elsewhere .finish w e w e
  | fail {w : World S} {e : Evaluator S (Except Error Unit)} {error : Error}
    (h : e.Gave (.error error)) : Drives m elsewhere (.fail error) w e w e
  | crash (w : World S) (e : Evaluator S (Except Error Unit)) : Drives m elsewhere .crash w e w e

def ending : Except Error Unit → Duty S
  | .ok () => .finish
  | .error error => .fail error

namespace Does

variable {duty : Duty S} {d d' : Desk S} (h : duty.Does d d')
include h

theorem queue_eq : duty.job?.toList ++ d'.queue = d.queue := by
  cases h <;> rfl

theorem failure_eq : d'.failure = d.failure.or duty.error? := by
  cases h with
  | fail error queue failure => cases failure <;> rfl
  | look | heed => rfl
  | take _ _ failure | quit failure | work _ failure | finish _ failure | crash _ failure =>
    cases failure <;> rfl

/-- A job is on the desk from being taken until it is counted or has failed. -/
theorem count_eq (hcrash : duty ≠ .crash) :
    d.completed + d.state.load + duty.job?.toList.length =
      d'.completed + d'.state.load + duty.error?.toList.length := by
  cases h with
  | crash => exact absurd rfl hcrash
  | _ => rfl

theorem state_of_take {job : Job S} (hduty : duty = .take job) :
    d.state = .picking ∧ d'.state = .busy := by
  cases h with
  | take => exact ⟨rfl, rfl⟩
  | _ => cases hduty

theorem stopped_of_fail {error : Error} (hduty : duty = .fail error) : d'.state = .stopped := by
  cases h with
  | fail => rfl
  | _ => cases hduty

theorem cases_of_busy (hbusy : d.state = .busy) (hcrash : duty ≠ .crash) :
    (duty = .work ∧ d'.state = .busy) ∨ duty = .finish ∨ ∃ error, duty = .fail error := by
  cases h with
  | work => exact .inl ⟨rfl, rfl⟩
  | finish => exact .inr (.inl rfl)
  | fail error => exact .inr (.inr ⟨error, rfl⟩)
  | crash => exact absurd rfl hcrash
  | _ => cases hbusy

theorem eq_work_of_busy (hbusy : d.state = .busy) (hbusy' : d'.state = .busy) : duty = .work := by
  cases h with
  | work => rfl
  | finish | fail | crash => cases hbusy'
  | _ => cases hbusy

theorem state_ne_crashed (hcrash : duty ≠ .crash) : d'.state ≠ .crashed := by
  cases h with
  | crash => exact absurd rfl hcrash
  | _ => exact nofun

theorem queue_eq_nil (hfailure : d'.failure = none) (hstate : d'.state = .stopped) :
    d'.queue = [] := by
  cases h with
  | quit => rfl
  | fail error queue failure => cases failure <;> cases hfailure
  | heed => cases hfailure
  | _ => cases hstate

/-- After a failure, only workers that have looked before take another job. -/
theorem hand_le (hfailure : d.failure ≠ none) :
    d'.state.hand + duty.job?.toList.length ≤ d.state.hand := by
  cases h with
  | look => exact absurd rfl hfailure
  | _ => simp [WorkerState.hand, job?]

theorem eq_of_work (hwork : duty = .work) : d' = d ∧ d.state = .busy := by
  cases h with
  | work => exact ⟨rfl, rfl⟩
  | _ => cases hwork

theorem not_over : d.state ≠ .stopped ∧ d.state ≠ .crashed := by
  cases h <;> exact ⟨nofun, nofun⟩

theorem weight_lt (hwork : duty ≠ .work) :
    3 * d'.queue.length + d'.state.weight < 3 * d.queue.length + d.state.weight := by
  cases h with
  | work => exact absurd rfl hwork
  | _ =>
    simp only [WorkerState.weight, List.length_cons]
    omega

end Does

namespace Drives

variable {m : Model S} {elsewhere : S.Key → Bool} {duty : Duty S} {d d' : Desk S} {w w' : World S}
  {e e' : Evaluator S (Except Error Unit)} (h : duty.Drives m elsewhere w e w' e')
include h

theorem world_eq (hwork : duty ≠ .work) : w' = w := by
  cases h with
  | work => exact absurd rfl hwork
  | _ => rfl

theorem evaluator_of_take {job : Job S} (hduty : duty = .take job) :
    e' = e.resume (.top job.action) := by
  cases h with
  | take =>
    cases hduty
    rfl
  | _ => cases hduty

theorem writes_eq_nil (hdoes : duty.Does d d')
    (hold : d.state = .ready ∨ d.state = .picking → e.writes = [])
    (hnew : d'.state = .ready ∨ d'.state = .picking) : e'.writes = [] := by
  cases h with
  | look =>
    cases hdoes with
    | look | heed => exact hold (.inl rfl)
  | finish h | fail h => exact h.writes
  | take | quit | work | crash =>
    cases hdoes
    rcases hnew with hnew | hnew
    · cases hnew
    · cases hnew

theorem ends (hdoes : duty.Does d d') (hbusy : d.state = .busy) (hdone : d'.state ≠ .busy)
    (hcrash : duty ≠ .crash) : ∃ result, e.Gave result ∧ duty = ending result := by
  cases h with
  | finish h => exact ⟨_, h, rfl⟩
  | fail h => exact ⟨_, h, rfl⟩
  | crash => exact absurd rfl hcrash
  | take | work =>
    cases hdoes
    exact absurd rfl hdone
  | look | quit =>
    cases hdoes
    all_goals cases hbusy

end Drives

end Duty

namespace Pool

variable {m : Model S} {p p' : Pool S} {i pick : Nat}

def desk (p : Pool S) (worker : Worker S) : Desk S :=
  ⟨p.queue, p.failure, worker.state, worker.completed⟩

def duty? (p : Pool S) (i : Nat) : Option (Duty S) :=
  p.workers[i]?.bind fun worker =>
    match worker.state with
    | .ready => some .look
    | .picking =>
      match p.queue with
      | [] => some .quit
      | job :: _ => some (.take job)
    | .busy =>
      match worker.evaluator.focus, worker.evaluator.writes with
      | .done (.ok ()), [] => some .finish
      | .done (.error error), [] => some (.fail error)
      | .crashed, _ => some .crash
      | _, _ => some .work
    | .stopped | .crashed => none

theorem does_of_step (h : p.step m i pick = some p') : ∃ worker worker' duty,
    p.workers[i]? = some worker ∧ p'.workers = p.workers.set i worker' ∧ p.duty? i = some duty ∧
      duty.Does (p.desk worker) (p'.desk worker') ∧
      duty.Drives m (p.heldBeside i) p.world worker.evaluator p'.world worker'.evaluator := by
  obtain ⟨world, queue, failure, workers⟩ := p
  unfold step at h
  split at h
  · cases h
  · next worker hworker =>
    obtain ⟨evaluator, state, completed⟩ := worker
    simp only [duty?, hworker, Option.bind_some]
    cases state with
    | ready =>
      cases h
      cases failure with
      | none => exact ⟨_, _, _, rfl, rfl, rfl, .look queue completed, .look ..⟩
      | some error => exact ⟨_, _, _, rfl, rfl, rfl, .heed queue error completed, .look ..⟩
    | picking =>
      cases queue with
      | nil =>
        cases h
        exact ⟨_, _, _, rfl, rfl, rfl, .quit failure completed, .quit ..⟩
      | cons job queue =>
        cases h
        exact ⟨_, _, _, rfl, rfl, rfl, .take job queue failure completed, .take ..⟩
    | busy =>
      obtain ⟨id, home, number, frames, levels, writes, focus⟩ := evaluator
      cases focus with
      | done result =>
        cases result with
        | ok =>
          cases writes with
          | nil =>
            cases h
            exact ⟨_, _, _, rfl, rfl, rfl, .finish queue failure completed, .finish ⟨rfl, rfl⟩⟩
          | cons =>
            obtain ⟨⟨w, e⟩, hstep, rfl⟩ := Option.map_eq_some_iff.1 h
            exact ⟨_, _, _, rfl, rfl, rfl, .work queue failure completed, .work pick hstep⟩
        | error error =>
          cases writes with
          | nil =>
            cases h
            exact ⟨_, _, _, rfl, rfl, rfl, .fail error queue failure completed, .fail ⟨rfl, rfl⟩⟩
          | cons =>
            obtain ⟨⟨w, e⟩, hstep, rfl⟩ := Option.map_eq_some_iff.1 h
            exact ⟨_, _, _, rfl, rfl, rfl, .work queue failure completed, .work pick hstep⟩
      | crashed =>
        cases h
        exact ⟨_, _, _, rfl, rfl, rfl, .crash queue failure completed, .crash ..⟩
      | _ =>
        obtain ⟨⟨w, e⟩, hstep, rfl⟩ := Option.map_eq_some_iff.1 h
        exact ⟨_, _, _, rfl, rfl, rfl, .work queue failure completed, .work pick hstep⟩
    | stopped => cases h
    | crashed => cases h

theorem focus_of_crash (h : p.duty? i = some .crash) :
    ∃ worker ∈ p.workers, worker.evaluator.focus = .crashed := by
  obtain ⟨worker, hworker, h⟩ := Option.bind_eq_some_iff.1 h
  refine ⟨worker, List.mem_of_getElem? hworker, ?_⟩
  grind

end Pool

end Attribution.Engine
