import Attribution.Attribute.Slot
/-!
# Analyses

All attributes of one program, evaluated on demand in one session.
-/

namespace Attribution

open Engine

abbrev AnyValue := (f : Family) × f.Value

/-- A unit as it is shown: with its status, if its session is alive. -/
structure UnitInfo where
  id : UnitId
  label : String
  phase : Option Phase
  status : Option Status

structure Analysis where
  subject : Subject
  config : Config
  world : World Attribute.schema

/-- What a step of an analysis gave besides its result. -/
structure Notes where
  reports : List Diagnostic
  calls : List (String × AnyValue)
  trace : List String

namespace Analysis

/-- The session of an analysis is the only one. -/
def home : SchedulerId :=
  0

/-- A bound on the steps of the evaluators, which no analysis reaches. -/
def patience : Nat :=
  1000000000000

def start (subject : Subject) (config : Config) : Analysis :=
  { subject, config
    world := { env := ({} : Slots), schedulers := #[{ limits := config.limits }] } }

variable {α : Type}

/-- Carries out an action with an evaluator of its own. There is no result if it
does not come to an end. -/
def perform (an : Analysis) (x : Eval α) : Analysis × Option (Except Error α) :=
  let (world, result) := an.world.perform an.subject.model patience home x.run
  ({ an with world }, result)

def slots (an : Analysis) : Slots :=
  an.world.env

def scheduler (an : Analysis) : Scheduler CellKey :=
  an.world.scheduler home

def size (an : Analysis) : Nat :=
  an.slots.taken.size

/-- The content of a cell, if it exists. -/
def peek (an : Analysis) (c : CellKey) : Except Error (Option (CellValue c.family.Value)) :=
  match an.slots.family? c.family.attr c.node with
  | none => .ok none
  | some f =>
    if f = c.family then .ok (some (an.world.cell c).value)
    else .error (.typeMismatch c.family.attr.title c.node)

/-- The existing cells by node, then by attribute. -/
def cells (an : Analysis) : List CellKey :=
  an.slots.taken.toList.map fun (number, f) => ⟨f, number / 8⟩

def reports (an : Analysis) : List Diagnostic :=
  an.scheduler.buffer.toList

def drain (an : Analysis) : Analysis × List Diagnostic :=
  let world := an.world.modifyScheduler home fun s => { s with buffer := #[] }
  ({ an with world }, an.reports)

def isDetached (an : Analysis) : Bool :=
  an.slots.detached

/-- Gives the analysis up. Cells that somebody still holds can be asked for, but
their equations cannot be solved any more. -/
def detach (an : Analysis) : Analysis :=
  { an with world := { an.world with env := { an.slots with detached := true } } }

def turnPage (an : Analysis) : Analysis :=
  let world := an.world.clearJournal
  { an with world := { world with env := { an.slots with calls := [] } } }

def notes (an : Analysis) (log : Option LogConfig) : Notes :=
  { reports := an.world.journal.reverse.filterMap fun
      | (_, .reported d) => some d
      | _ => none
    calls := an.slots.calls.reverse.map fun (tag, ⟨c, v⟩) => (tag, ⟨c.family, v⟩)
    trace := match log with
      | some log => an.world.trace log
      | none => [] }

end Analysis

namespace Subject

variable (s : Subject)

/-- The value in a cell, without computing it. -/
def cached (c : CellKey) : Eval (Option c.family.Value) := do
  s.occupy c
  let view ← Eval.ask .look
  return (view.world.cell c).value.value?

def reset (c : CellKey) : Eval Unit := do
  s.occupy c
  Eval.ask (.reset c)

def update (c : CellKey) (v : c.family.Value) : Eval Unit := do
  s.occupy c
  Eval.ask (.force c v)

def soften (c : CellKey) (v : c.family.Value) : Eval Unit := do
  s.occupy c
  Eval.ask (.soften c v)

def addHook (c : CellKey) (tag : String) : Eval Unit := do
  s.occupy c
  Eval.ask (.addHook c tag)

def resolver? (c : CellKey) : Eval (Option (WorkUnit CellKey)) := do
  s.occupy c
  let view ← Eval.ask .look
  return (view.world.cell c).resolver

def attempt (c : CellKey) : Eval (Option Attempt) := do
  match ← s.resolver? c with
  | none => return none
  | some u => some <$> liftExcept (← Eval.ask (.attempt u))

def resolverInfo (c : CellKey) : Eval (Option UnitInfo) := do
  match ← s.resolver? c with
  | none => return none
  | some u =>
    let view ← Eval.ask .look
    return some ⟨u.id, u.label, u.phase, view.world.unitStatus? u⟩

/-- The value of a cell, or the error that stands in its way. -/
def tryRead (c : CellKey) : Eval (Except Error AnyValue) := do
  return (← Eval.observe (s.probeCell c)).map fun p => ⟨c.family, p.value⟩

/-- Every attribute of a node, in the order of `Attribute.all`. -/
def row (id : NodeId) : Eval (List (Except Error AnyValue)) :=
  Attribute.all.mapM fun a => s.tryRead ⟨.standard a, id⟩

def table : Eval (List (List (Except Error AnyValue))) :=
  s.tree.preorder.mapM s.row

def column (a : Attribute) : Eval (List (Except Error AnyValue)) :=
  s.tree.preorder.mapM fun id => s.tryRead ⟨.standard a, id⟩

/-- Everything that may be wrong with one node; answers whether the node begins
a run of unreachable statements. -/
def diagnoseNode (id : NodeId) : Eval Bool := do
  match s.tree.node? id with
  | none => throw (.unknownNode id)
  | some n =>
    match n.kind with
    | .constDecl _ => discard <| s.read .constant id
    | .breakTo _ => discard <| s.read .breaks id
    | .continueTo _ => discard <| s.read .continues id
    | _ => pure ()
    if n.kind.isStatement then s.read .unreachable id else return false

/-- Counts the nodes that begin a run of unreachable statements. -/
def diagnoseAll (found : Nat) : List NodeId → Eval Nat
  | [] => pure found
  | id :: rest => do
    let begins ← s.diagnoseNode id
    diagnoseAll (if begins then found + 1 else found) rest

/-- Asks for whatever makes equations report, all over the tree. -/
def diagnose : Eval Unit := do
  Eval.ask (.note (.diagnosing s.tree.size))
  let unreachable ← s.diagnoseAll 0 s.tree.preorder
  let escaping ← s.read .propagated s.tree.root
  let slots ← Eval.slots
  Eval.ask (.note (.diagnosed unreachable escaping slots.taken.size))

end Subject

namespace Analysis

def runPool (an : Analysis) (workers : Option Nat) (cells : List CellKey) :
    Analysis × PoolResult :=
  let job (c : CellKey) : Job Attribute.schema :=
    ⟨c.label, c.family.phase, (do discard <| an.subject.probeCell c : Eval Unit).run⟩
  let (world, result) := an.world.runPool an.subject.model patience home
    (workers.getD an.config.pool.workers) (cells.map job)
  ({ an with world }, result)

/-- A cell that was read after its analysis was given up: its value or an error,
and its content afterwards. -/
structure Leftover where
  result : Except Error AnyValue
  cell : CellKey
  content : CellValue cell.family.Value

def readLeftover (c : CellKey) : Eval Leftover := do
  let result ← Eval.ask (.probe c)
  let view ← Eval.ask .look
  return ⟨result.map fun p => ⟨c.family, p.value⟩, c, (view.world.cell c).value⟩

/-- Creates cells, gives the analysis up, and then reads the cells that could be
created. -/
def dropHolding (an : Analysis) (cells : List CellKey) :
    Analysis × Option (Except Error (List (Except Error Leftover))) :=
  let obtained (c : CellKey) : Eval (Except Error CellKey) := do
    return (← Eval.observe (an.subject.occupy c)).map fun _ => c
  let (an, held) := an.perform (cells.mapM obtained)
  let an := an.detach
  match held with
  | none => (an, none)
  | some (.error e) => (an, some (.error e))
  | some (.ok held) =>
    let reread : Except Error CellKey → Eval (Except Error Leftover)
      | .error e => pure (.error e)
      | .ok c => .ok <$> readLeftover c
    an.perform (held.mapM reread)

end Analysis

end Attribution
