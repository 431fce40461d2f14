import Attribution.Script.Exec
/-!
# Scripts

A script is a list of steps over named sessions. Each step is carried out by a
new evaluator of its session, and answers with a result, the log it wrote and
the events it caused. A step in a session that is gone gets a session of its
own, which ends with the step.
-/

namespace Attribution.Script

open Engine

structure JobSpec where
  label : String
  phase : Option Nat
  instrs : List Instr

inductive Command where
  | instr (i : Instr)
  | session (name : String) (config : Config) (reporter : Reporter)
  | dropSession (name : String)
  | diagnostics
  | drain
  | count (kind : DiagnosticKind)
  | buffer
  | pool (workers : Option Nat) (jobs : List JobSpec)

structure Step where
  session : String
  command : Command

structure Session where
  scheduler : SchedulerId
  config : Config

structure PoolReport where
  queued : Nat
  workers : Nat
  completed : List Nat

inductive Result where
  | datum (d : Datum)
  | error (e : Error)
  | pool (report : PoolReport)
  /-- The step brought the whole pool down. -/
  | collapsed
  /-- The step came to no end. -/
  | hung

structure Answer where
  result : Result
  log : List Datum
  trace : List String

structure Stage where
  world : World schema
  sessions : Std.TreeMap String Session := {}

namespace Stage

/-- A bound on the steps of the evaluators, which no sensible script reaches. -/
def patience : Nat :=
  1000000000000

/-- Ends a session. Its scheduler takes no more part. -/
def drop (s : Stage) (name : String) : Stage :=
  match s.sessions[name]? with
  | none => s
  | some session =>
    { world := s.world.modifyScheduler session.scheduler fun x => { x with live := false }
      sessions := s.sessions.erase name }

/-- Begins a session, which replaces one of the same name. -/
def start (s : Stage) (name : String) (config : Config) (reporter : Reporter) : Stage :=
  let s := s.drop name
  let (world, scheduler) := s.world.addScheduler { limits := config.limits, reporter }
  { world, sessions := s.sessions.insert name ⟨scheduler, config⟩ }

def initial (config : Config) (reporter : Reporter) : Stage :=
  { world := { env := ({} : Env) } : Stage }.start "main" config reporter

def runJob (j : JobSpec) : Action schema (Except Error Unit) :=
  standalone do
    Exec.write [.text "job", .text j.label]
    execAll 0 j.instrs

/-- The reports of a session, unless they go to the environment. -/
def reports? (s : Stage) (session : Session) : Option (List Diagnostic) :=
  let x := s.world.scheduler session.scheduler
  match x.reporter with
  | .buffer => some x.buffer.toList
  | .custom => none

def texts (reports : List Diagnostic) : Datum :=
  .list (reports.map fun d => .text d.text)

def obey (s : Stage) (session : Session) : Command → Stage × Result
  | .instr i =>
    let (world, result) := s.world.perform model patience session.scheduler (standalone (exec 0 i))
    let result := match result with
      | some (.ok d) => Result.datum d
      | some (.error e) => .error e
      | none => .hung
    ({ s with world }, result)
  | .session name config reporter => (s.start name config reporter, .datum .null)
  | .dropSession name => (s.drop name, .datum .null)
  | .diagnostics => (s, .datum (.ofOption texts (s.reports? session)))
  | .drain =>
    let result := Datum.ofOption texts (s.reports? session)
    let world := s.world.modifyScheduler session.scheduler fun x => { x with buffer := #[] }
    ({ s with world }, .datum result)
  | .count kind =>
    let count (reports : List Diagnostic) : Datum := .nat (reports.countP fun d => d.kind = kind)
    (s, .datum (.ofOption count (s.reports? session)))
  | .buffer =>
    let sizes (reports : List Diagnostic) : Datum :=
      .list [.nat reports.length, .bool reports.isEmpty]
    (s, .datum (.ofOption sizes (s.reports? session)))
  | .pool workers jobs =>
    let workers := workers.getD session.config.pool.workers
    let tasks := jobs.map fun j => (⟨j.label, j.phase, runJob j⟩ : Job schema)
    let (world, result) := s.world.runPool model patience session.scheduler workers tasks
    let result := match result with
      | .finished completed => Result.pool ⟨jobs.length, workers, completed⟩
      | .failed e => .error e
      | .collapsed => .collapsed
      | .hung => .hung
    ({ s with world }, result)

/-- Several workers write to one log at once, so their entries are shown in the
order of their text. -/
def settledLog (workers : Nat) (log : List Datum) : List Datum :=
  if workers ≤ 1 then log else log.mergeSort fun a b => a.json ≤ b.json

/-- The number of evaluators that a command puts to work at once. -/
def crew (session : Session) : Command → Nat
  | .pool workers _ => workers.getD session.config.pool.workers
  | _ => 1

def step (log : Option LogConfig) (s : Stage) (x : Step) : Stage × Answer :=
  let world := s.world.clearJournal
  let s := { s with world := { world with env := { world.env with log := [] } } }
  let known := s.sessions[x.session]?
  let (s, session) := match known with
    | some session => (s, session)
    | none =>
      let (world, scheduler) := s.world.addScheduler {}
      ({ s with world }, { scheduler, config := {} })
  let (s, result) := s.obey session x.command
  let answer : Answer :=
    { result
      log := settledLog (crew session x.command) s.world.env.log.reverse
      trace := match log with
        | some log => s.world.trace log
        | none => [] }
  let s := match known with
    | some _ => s
    | none =>
      { s with world := s.world.modifyScheduler session.scheduler fun y => { y with live := false } }
  (s, answer)

def runAll (log : Option LogConfig) (s : Stage) : List Step → List Answer
  | [] => []
  | x :: rest =>
    let (s, answer) := s.step log x
    answer :: s.runAll log rest

end Stage

end Attribution.Script
