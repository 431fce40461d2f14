import Attribution.Config
import Attribution.Engine.Schema
/-!
# Events

What the engine and the analyses on top of it let an observer know while they
work, and the line of text that shows each event.
-/

namespace Attribution.Engine

inductive Event where
  | forced (cell : String) (hooks : Nat)
  | softened (cell : String)
  | reset (cell : String)
  | fellBack (cell : String)
  | started (unit : String) (id : UnitId)
  | finished (unit : String) (status : Status)
  | cycle (unit : String) (depth : Nat)
  | crossCycle (unit head : String)
  | suppressed (unit message : String)
  | reported (diagnostic : Diagnostic)
  | helping (waiting helped : String) (phase : Phase)
  | poolStarted (workers jobs : Nat)
  | poolFinished (jobs : Nat)
  | poolAborted (error : Error)
  | diagnosing (nodes : Nat)
  | diagnosed (unreachable : Nat) (escaping : TypeSet) (cells : Nat)
  deriving DecidableEq

namespace Event

def component : Event → Component
  | .forced .. | .softened _ | .reset _ | .fellBack _ => .cell
  | .started .. | .finished .. | .cycle .. | .crossCycle .. | .suppressed .. | .reported _ =>
    .scheduler
  | .helping .. => .phase
  | .poolStarted .. | .poolFinished _ | .poolAborted _ => .pool
  | .diagnosing _ | .diagnosed .. => .equations

def level : Event → Level
  | .forced .. | .softened _ | .started .. | .finished .. => .trace
  | .reset _ | .fellBack _ | .cycle .. | .crossCycle .. | .suppressed .. | .helping .. => .debug
  | .diagnosing _ | .diagnosed .. => .debug
  | .poolStarted .. | .poolFinished _ => .info
  | .reported _ | .poolAborted _ => .warn

/-- What stands before the target: a span for an event that has an extent, and
the level otherwise. -/
def heading : Event → String
  | .diagnosing _ => "SPAN"
  | e => e.level.capitals

def body : Event → String
  | .forced cell hooks => "forced cell=" ++ cell ++ " handlers=" ++ toString hooks
  | .softened cell => "soft cell=" ++ cell
  | .reset cell => "reset cell=" ++ cell
  | .fellBack cell => "cycle, using fallback cell=" ++ cell
  | .started unit id => "running unit=" ++ unit ++ " id=" ++ toString id
  | .finished unit status => "finished unit=" ++ unit ++ " status=" ++ status.name
  | .cycle unit depth => "cycle detected unit=" ++ unit ++ " depth=" ++ toString depth
  | .crossCycle unit head =>
    "cycle detected across evaluators unit=" ++ unit ++ " head=" ++ head
  | .suppressed unit message => "suppressed repeated failure: " ++ message ++ " unit=" ++ unit
  | .reported d => d.message ++ " kind=" ++ d.kind.name ++ " location=" ++ d.location.text
  | .helping waiting helped phase =>
    "running earlier-phase unit before barrier waiting=" ++ waiting ++ " helping=" ++ helped ++
      " phase=" ++ toString phase
  | .poolStarted workers jobs =>
    "starting worker pool workers=" ++ toString workers ++ " jobs=" ++ toString jobs
  | .poolFinished jobs => "worker pool finished jobs=" ++ toString jobs
  | .poolAborted error => "worker pool aborted error=" ++ error.message
  | .diagnosing nodes => "diagnose nodes=" ++ toString nodes
  | .diagnosed unreachable escaping cells =>
    "diagnose finished unreachable=" ++ toString unreachable ++ " escaping=" ++ escaping.text ++
      " cells=" ++ toString cells

def text (e : Event) : String :=
  e.heading ++ " " ++ e.component.target ++ " " ++ e.body

/-- Whether an event is worth showing under a log configuration. -/
def isShown (log : LogConfig) (e : Event) : Bool :=
  log.shows e.component e.level

end Event

end Attribution.Engine
