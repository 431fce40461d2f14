/-!
# Configuration

Limits of an evaluation, the size of a worker pool, and which events are worth
showing. Every component of the engine has a target name of its own and may
override the level of the whole.
-/

namespace Attribution

/-- Severity of an event, from the least verbose on. -/
inductive Level where
  | error
  | warn
  | info
  | debug
  | trace
  deriving DecidableEq, Repr

namespace Level

def verbosity : Level → Nat
  | .error => 0
  | .warn => 1
  | .info => 2
  | .debug => 3
  | .trace => 4

def name : Level → String
  | .error => "error"
  | .warn => "warn"
  | .info => "info"
  | .debug => "debug"
  | .trace => "trace"

def capitals : Level → String
  | .error => "ERROR"
  | .warn => "WARN"
  | .info => "INFO"
  | .debug => "DEBUG"
  | .trace => "TRACE"

/-- Whether an event of level `l` shows where events up to `shown` do. -/
def passes (l shown : Level) : Bool :=
  decide (l.verbosity ≤ shown.verbosity)

end Level

inductive Component where
  | cell
  | scheduler
  | phase
  | pool
  | equations
  deriving DecidableEq, Repr

namespace Component

def all : List Component :=
  [.cell, .scheduler, .phase, .pool, .equations]

def name : Component → String
  | .cell => "cell"
  | .scheduler => "scheduler"
  | .phase => "phase"
  | .pool => "pool"
  | .equations => "equations"

/-- The name under which the component's events are filed. -/
def target (c : Component) : String :=
  "kiln::" ++ c.name

end Component

structure LogConfig where
  global : Level := .info
  override : Component → Option Level := fun _ => none

namespace LogConfig

def levelOf (log : LogConfig) (c : Component) : Level :=
  (log.override c).getD log.global

def shows (log : LogConfig) (c : Component) (l : Level) : Bool :=
  l.passes (log.levelOf c)

/-- Whether an event filed under any target name shows: the component whose
target begins the name decides, and the global level decides for the rest. -/
def wouldShow (log : LogConfig) (target : String) (l : Level) : Bool :=
  match Component.all.find? fun c => c.target.toList.isPrefixOf target.toList with
  | some c => log.shows c l
  | none => l.passes log.global

end LogConfig

structure Limits where
  maxDepth : Nat := 1024
  stallMillis : Nat := 2000
  deriving DecidableEq

structure PoolConfig where
  workers : Nat := 4
  stackSize : Nat := 8388608
  deriving DecidableEq

structure Config where
  limits : Limits := {}
  pool : PoolConfig := {}
  log : LogConfig := {}

end Attribution
