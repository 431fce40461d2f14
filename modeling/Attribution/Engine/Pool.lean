import Attribution.Engine.Run
/-!
# Worker pools

Several evaluators of one session that take jobs from a queue. Jobs are sorted
by phase before they are handed out, those without a phase first. After a
failure no worker takes another job, and the first failure is the result.
-/

namespace Attribution.Engine

variable {S : Schema}

structure Job (S : Schema) where
  label : String
  phase : Option Phase
  action : Action S (Except Error Unit)

namespace Job

/-- Position in the order of phases, no phase coming first. -/
def rank (j : Job S) : Nat :=
  match j.phase with
  | none => 0
  | some p => p + 1

/-- Jobs in the order in which they are handed out; jobs of one phase keep
their order. -/
def sorted (jobs : List (Job S)) : List (Job S) :=
  jobs.mergeSort fun a b => a.rank ≤ b.rank

end Job

/-- A worker first looks whether a job has failed, then takes a job, then runs
it. A crashed worker takes no more part. -/
inductive WorkerState where
  | ready
  | picking
  | busy
  | stopped
  | crashed
  deriving DecidableEq

structure Worker (S : Schema) where
  evaluator : Evaluator S (Except Error Unit)
  state : WorkerState := .ready
  completed : Nat := 0

structure Pool (S : Schema) where
  world : World S
  queue : List (Job S)
  failure : Option Error := none
  workers : List (Worker S) := []

/-- How a pool ended. When more than one worker crashed, the pool itself did. -/
inductive PoolResult where
  | finished (completed : List Nat)
  | failed (error : Error)
  | collapsed
  | hung
  deriving DecidableEq

def totalJobs (completed : List Nat) : Nat :=
  completed.foldl (fun total jobs => total + jobs) 0

namespace Pool

def setWorker (p : Pool S) (i : Nat) (worker : Worker S) : Pool S :=
  { p with workers := p.workers.set i worker }

/-- Whether a worker other than `i` holds a cell. -/
def heldBeside (p : Pool S) (i : Nat) (c : S.Key) : Bool :=
  p.workers.zipIdx.any fun (worker, j) =>
    j != i && worker.state == .busy && worker.evaluator.holds c

/-- One step of the worker numbered `i`, if there is one to take. -/
def step (m : Model S) (i pick : Nat) (p : Pool S) : Option (Pool S) :=
  match p.workers[i]? with
  | none => none
  | some worker =>
    match worker.state with
    | .ready =>
      some (p.setWorker i { worker with state := if p.failure.isSome then .stopped else .picking })
    | .picking =>
      match p.queue with
      | [] => some (p.setWorker i { worker with state := .stopped })
      | job :: queue =>
        let evaluator := worker.evaluator.resume (.top job.action)
        some ({ p with queue }.setWorker i { worker with evaluator, state := .busy })
    | .busy =>
      match worker.evaluator.focus, worker.evaluator.writes with
      | .done (.ok ()), [] =>
        some (p.setWorker i { worker with state := .ready, completed := worker.completed + 1 })
      | .done (.error error), [] =>
        some ({ p with failure := p.failure <|> some error }.setWorker i
          { worker with state := .stopped })
      | .crashed, _ => some (p.setWorker i { worker with state := .crashed })
      | _, _ =>
        let world := { p.world with elsewhere := p.heldBeside i }
        (worker.evaluator.step m pick world).map fun (world, evaluator) =>
          { p with world := { world with elsewhere := fun _ => false } }.setWorker i
            { worker with evaluator }
    | .stopped | .crashed => none

/-- The first worker of the list that can take a step takes it. -/
def turn (m : Model S) (p : Pool S) : List Nat → Option (Pool S × Nat)
  | [] => none
  | i :: rest =>
    match p.step m i 0 with
    | some p => some (p, i)
    | none => p.turn m rest

/-- Workers take at most `limit` steps. A worker goes on until it must wait;
then the next one that can go on does. -/
def run (m : Model S) : Nat → Nat → Pool S → Pool S
  | 0, _, p => p
  | limit + 1, current, p =>
    match p.turn m ((List.range p.workers.length).rotateLeft current) with
    | some (p, i) => run m limit i p
    | none => p

def crashed (p : Pool S) : List Nat :=
  p.workers.zipIdx.filterMap fun (worker, i) => if worker.state = .crashed then some i else none

def isOver (p : Pool S) : Bool :=
  p.workers.all fun worker => worker.state == .stopped || worker.state == .crashed

def result (p : Pool S) : PoolResult :=
  if !p.isOver then .hung
  else match p.crashed, p.failure with
    | [], none => .finished (p.workers.map Worker.completed)
    | [], some error => .failed error
    | [i], _ => .failed (.workerPanicked ("kiln-worker-" ++ toString i))
    | _, _ => .collapsed

/-- The last event of a pool. A crash is not told of. -/
def lastEvent? (p : Pool S) : Option Event :=
  match p.crashed, p.result with
  | [], .finished completed => some (.poolFinished (totalJobs completed))
  | [], .failed error => some (.poolAborted error)
  | _, _ => none

/-- The workers numbered from `i` on. -/
def hire (w : World S) (home : SchedulerId) (i : Nat) : Nat → World S × List (Worker S)
  | 0 => (w, [])
  | count + 1 =>
    let (w, evaluator) := w.evaluator home (some i) (.done (.ok ()))
    let (w, rest) := hire w home (i + 1) count
    (w, { evaluator } :: rest)

end Pool

namespace World

/-- Runs jobs on a number of workers, at least one. -/
def runPool (m : Model S) (limit : Nat) (w : World S) (home : SchedulerId) (workers : Nat)
    (jobs : List (Job S)) : World S × PoolResult :=
  let count := max workers 1
  let w := w.note none (.poolStarted count jobs.length)
  let (w, workers) := Pool.hire w home 0 count
  let p := Pool.run m limit 0 { world := w, queue := Job.sorted jobs, workers }
  let w := match p.lastEvent? with
    | some e => p.world.note none e
    | none => p.world
  (w, p.result)

end World

end Attribution.Engine
