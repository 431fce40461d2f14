import Attribution.Engine.Pool
import Attribution.Script.Datum
import Attribution.Script.Instr
import Std.Data.TreeMap
/-!
# Carrying out instructions

Instructions as actions of the engine. A cell is identified by its declaration:
a name that is declared again stands for a new cell, and a rule whose cell is
no longer named or in use computes its value for nobody.
-/

namespace Attribution.Script

open Engine

structure CellKey where
  index : Nat
  name : String
  fallback : Int64
  sentinel : Int64
  deriving DecidableEq

namespace CellKey

def order : CellKey → CellKey → Ordering :=
  compareLex (compareOn index)
    (compareLex (compareOn name) (compareLex (compareOn fallback) (compareOn sentinel)))

instance : Std.TransCmp order :=
  inferInstanceAs (Std.TransCmp (compareLex (compareOn index)
    (compareLex (compareOn name) (compareLex (compareOn fallback) (compareOn sentinel)))))

instance : Std.LawfulEqCmp order where
  eq_of_compare := by
    rintro ⟨i, n, f, s⟩ ⟨j, m, g, t⟩ h
    simp only [order, compareLex_eq_eq, compareOn, Std.LawfulEqOrd.compare_eq_iff_eq] at h
    obtain ⟨rfl, rfl, rfl, rfl⟩ := h
    rfl

end CellKey

/-- The body of a unit. Units that share a `counter` share the number of their
runs. The accumulator goes to the `target` when the body ends. -/
structure Body where
  label : String
  counter : Nat
  target : Option CellKey
  instrs : List Instr

/-- Logs each final value of a cell, and may pass it on to the cell that has
the target's name by then. -/
structure Handler where
  tag : String
  target : Option String

structure Env where
  cells : Std.TreeMap String CellKey := {}
  units : Std.TreeMap String (WorkUnit Body) := {}
  declared : Nat := 0
  runs : Array Nat := #[]
  arrivals : Std.TreeMap String Nat := {}
  /-- The latest entry comes first. -/
  log : List Datum := []

namespace Env

def write (env : Env) (entry : List Datum) : Env :=
  { env with log := .list entry :: env.log }

/-- Whether the name of a cell still stands for it. -/
def names (env : Env) (c : CellKey) : Bool :=
  env.cells[c.name]? == some c

end Env

def schema : Schema where
  Key := CellKey
  Val _ := Int64
  order := CellKey.order
  name := CellKey.name
  fallback := CellKey.fallback
  sentinel := CellKey.sentinel
  Rule := Body
  Hook := Handler
  Env := Env

/-- Instructions may fail, and the accumulator survives the failure. -/
abbrev Exec := ExceptT Error (StateT Int64 (Action schema))

namespace Exec

def ask (r : Request schema) : Exec r.Answer :=
  liftM (Action.request r : Action schema r.Answer)

def look : Exec (View schema) :=
  ask .look

def changeEnv (change : Env → Env) : Exec Env :=
  ask (.env change)

def write (entry : List Datum) : Exec Unit := do
  discard <| changeEnv fun env => env.write entry

/-- A script that uses a name nobody declared crashes. -/
def demand {α : Type} (name : String) : Option α → Exec α
  | some a => pure a
  | none => do
    ask .crash
    throw (.detached name)

def cellNamed (name : String) : Exec CellKey := do
  let env ← changeEnv id
  demand name env.cells[name]?

def unitNamed (name : String) : Exec (WorkUnit Body) := do
  let env ← changeEnv id
  demand name env.units[name]?

def collect (i : Int64) : Exec Unit :=
  modify (· + i)

end Exec

def attemptText : Attempt → String
  | .success => "Success"
  | .fail => "Fail"
  | .provisional => "Provisional"
  | .cycle => "Cycle"
  | .failing => "Failing"

def idText (id : UnitId) : String :=
  "u" ++ toString id

def stateDatum : CellValue Int64 → Datum
  | .unset => .list [.text "unset"]
  | .soft v => .list [.text "soft", .word v]
  | .forced v => .list [.text "forced", .word v]

def probeDatum : Probe Int64 → Datum
  | .ready v => .list [.text "ready", .word v]
  | .cyclic v => .list [.text "cyclic", .word v]
  | .failed v => .list [.text "failed", .word v]

def statusDatum (status : Option Status) : Datum :=
  .ofOption (fun s => .text s.name) status

def unitDatum (w : World schema) (u : WorkUnit Body) : Datum :=
  .list [.text (idText u.id), .text u.label, .ofOption .nat u.phase, statusDatum (w.unitStatus? u)]

def cellText (name : String) (value : CellValue Int64) : String :=
  let content := match value with
    | .unset => "Unset"
    | .soft v => "Soft(" ++ toString v.toInt ++ ")"
    | .forced v => "Forced(" ++ toString v.toInt ++ ")"
  "Cell \x7b name: " ++ Text.literal name ++ ", value: " ++ content ++ " \x7d"

def unitText (u : WorkUnit Body) : String :=
  let phase := match u.phase with
    | none => "None"
    | some p => "Some(Phase(" ++ toString p ++ "))"
  "Unit \x7b id: UnitId(" ++ toString u.id ++ "), label: " ++ Text.literal u.label ++
    ", phase: " ++ phase ++ " \x7d"

def newCounter : Exec Nat := do
  let env ← Exec.changeEnv fun env => { env with runs := env.runs.push 0 }
  return env.runs.size

def nameUnit (name : String) (u : WorkUnit Body) : Exec Datum := do
  discard <| Exec.changeEnv fun env => { env with units := env.units.insert name u }
  return .text (idText u.id)

def dump (v : View schema) : Datum :=
  let cells := v.world.env.cells.toList.map fun (name, c) =>
    Datum.list [.text name, stateDatum (v.world.cell c).value]
  let units := v.world.env.units.toList.map fun (name, u) =>
    Datum.list [.text name, statusDatum (v.world.unitStatus? u)]
  .list [.list cells, .list units]

/-- Waits until `count` evaluators have come here; those that come later wait
for the next full round. -/
def meet (name : String) (count : Nat) : Exec Unit := do
  let here (env : Env) : Nat := env.arrivals.getD name 0
  let before ← Exec.changeEnv fun env =>
    { env with arrivals := env.arrivals.insert name (here env + 1) }
  let round := here before / count + 1
  Exec.ask (.await fun env => decide (round * count ≤ here env))

mutual

def exec (run : Nat) : Instr → Exec Datum
  | .cell name fallback sentinel => do
    discard <| Exec.changeEnv fun env =>
      let c : CellKey := ⟨env.declared, name, fallback, sentinel⟩
      { env with cells := env.cells.insert name c, declared := env.declared + 1 }
    return .null
  | .unit name phase body => do
    let counter ← newCounter
    let u ← Exec.ask (.register name phase (⟨name, counter, none, body⟩ : Body))
    nameUnit name u
  | .rule cell name phase body => do
    let c ← Exec.cellNamed cell
    let counter ← newCounter
    let u ← liftM (Action.setRule c name phase (⟨name, counter, some c, body⟩ : Body) :
      Action schema (WorkUnit Body))
    nameUnit name u
  | .resolver cell unit => do
    let c ← Exec.cellNamed cell
    let u ← Exec.unitNamed unit
    Exec.ask (.resolveWith c u)
    return .null
  | .handler cell tag target => do
    let c ← Exec.cellNamed cell
    Exec.ask (.addHook c (⟨tag, target⟩ : Handler))
    return .null
  | .get cell => do
    let c ← Exec.cellNamed cell
    let p ← liftExcept (← Exec.ask (.probe c))
    Exec.collect p.value
    return .word p.value
  | .probe cell => do
    let c ← Exec.cellNamed cell
    let p ← liftExcept (← Exec.ask (.probe c))
    Exec.collect p.value
    return .list [probeDatum p, .bool p.isCyclic]
  | .attempt unit => do
    let u ← Exec.unitNamed unit
    let outcome ← liftExcept (← Exec.ask (.attempt u))
    return .text (attemptText outcome)
  | .fill cell value => do
    let c ← Exec.cellNamed cell
    Exec.ask (.fill c value)
    return .null
  | .put cell => do
    let c ← Exec.cellNamed cell
    Exec.ask (.fill c (← get))
    return .null
  | .fail d => do
    Exec.ask (.fail d)
    return .null
  | .report d => do
    Exec.ask (.report d)
    return .null
  | .update cell value => do
    let c ← Exec.cellNamed cell
    Exec.ask (.force c value)
    return .null
  | .soft cell value => do
    let c ← Exec.cellNamed cell
    Exec.ask (.soften c value)
    return .null
  | .reset cell => do
    let c ← Exec.cellNamed cell
    Exec.ask (.reset c)
    return .null
  | .value cell => do
    let c ← Exec.cellNamed cell
    let state := ((← Exec.look).world.cell c).value
    return .list [stateDatum state, .ofOption .word state.value?, .bool state.isForced,
      .bool state.isSoft]
  | .cached cell => do
    let c ← Exec.cellNamed cell
    return .ofOption .word ((← Exec.look).world.cell c).value.value?
  | .cellInfo cell => do
    let c ← Exec.cellNamed cell
    return .list [.text c.name, .word c.fallback, .word c.sentinel]
  | .resolverOf cell => do
    let c ← Exec.cellNamed cell
    let w := (← Exec.look).world
    return .ofOption (unitDatum w) (w.cell c).resolver
  | .unitInfo unit => do
    let u ← Exec.unitNamed unit
    return unitDatum (← Exec.look).world u
  | .status unit => do
    let u ← Exec.unitNamed unit
    let status := (← Exec.look).scheduler.status? u.id
    return .ofOption (fun s => .list [.text s.name, .bool s.isTerminal, .bool s.isRunning]) status
  | .pending phase => do
    return .nat ((← Exec.look).scheduler.pendingIn phase)
  | .depth => do
    return .nat (← Exec.look).depth
  | .limit => do
    return .nat (← Exec.look).scheduler.limits.maxDepth
  | .current => do
    return .ofOption (fun u => .text u.label) (← Exec.look).current?
  | .debugCell cell => do
    let c ← Exec.cellNamed cell
    return .text (cellText c.name ((← Exec.look).world.cell c).value)
  | .debugUnit unit => do
    return .text (unitText (← Exec.unitNamed unit))
  | .dump => do
    return dump (← Exec.look)
  | .acc => do
    return .word (← get)
  | .set value => do
    set value
    return .null
  | .add value => do
    modify (· + value)
    return .null
  | .mul value => do
    modify (· * value)
    return .null
  | .log instr => do
    let result ← exec run instr
    Exec.write [.text "log", result]
    return .null
  | .onRun number body => do
    if (run : Int) = number then execAll run body
    return .null
  | .rescue body => do
    try execAll run body
    catch e => Exec.write [.text "caught", .error e]
    return .null
  | .throw text => throw (.detached text)
  | .crash => do
    Exec.ask .crash
    return .null
  | .meet name count => do
    meet name count
    return .null
  | .pause => return .null

def execAll (run : Nat) : List Instr → Exec Unit
  | [] => pure ()
  | instr :: rest => do
    discard <| exec run instr
    execAll run rest

end

/-- Instructions on their own, outside every body. -/
def standalone {α : Type} (x : Exec α) : Action schema (Except Error α) := do
  return (← x.run.run 0).1

/-- Stores the accumulator in the cell of a rule, as long as the cell is named
or held. -/
def deliver (c : CellKey) (v : Int64) : Action schema Unit := do
  let view ← Action.look
  if view.resolves c && (view.world.env.names c || view.holds c) then
    Action.request (.fill c v)
  else return

/-- A body starts by logging its label and the number of its run. -/
def runBody (b : Body) : Action schema (Except Error Unit) := do
  let runOf (env : Env) : Nat := env.runs.getD b.counter 0 + 1
  let before ← Action.changeEnv fun (env : Env) =>
    { env with runs := env.runs.modify b.counter (· + 1) }.write
      [.text "enter", .text b.label, .nat (runOf env)]
  let (result, acc) ← (execAll (runOf before) b.instrs).run.run 0
  match result, b.target with
  | .error e, _ => return .error e
  | .ok (), none => return .ok ()
  | .ok (), some c =>
    deliver c acc
    return .ok ()

def model : Model schema where
  body := runBody
  react _ h v env :=
    (env.write [.text "handler", .text h.tag, .word v],
      (h.target.bind fun name => env.cells[name]?).map fun d => ⟨d, v⟩)
  receive d env :=
    env.write [.text "report", .text d.kind.name, .text d.message, .text d.location.text]

end Attribution.Script
