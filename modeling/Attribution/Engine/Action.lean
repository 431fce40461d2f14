import Attribution.Engine.World
/-!
# Actions

The body of a unit as a tree of requests to the engine. Each request carries
what to do with its answer, so a body is data: it can be run by any number of
evaluators that take turns.
-/

namespace Attribution.Engine

/-- A unit that an evaluator is running. `head` is the lowest position on the
stack of a unit that was entered again from here, `fills` are the cells filled
so far, and a doomed frame has reported a failure. -/
structure Frame (S : Schema) where
  unit : WorkUnit S.Rule
  head : Option Nat := none
  fills : List S.Key := []
  doomed : Bool := false

namespace Frame

variable {S : Schema}

/-- A frame above the re-entered position `index` is part of its cycle. -/
def joinCycle (index : Nat) (f : Frame S) : Frame S :=
  { f with head := some (match f.head with | some head => min head index | none => index) }

/-- The position of the topmost frame of a unit, counted from the bottom. -/
def indexOf? (id : UnitId) : List (Frame S) → Option Nat
  | [] => none
  | f :: rest => if f.unit.id = id then some rest.length else indexOf? id rest

/-- Every frame above the re-entered position is part of its cycle. -/
def joinCycleAbove (index : Nat) : List (Frame S) → List (Frame S)
  | [] => []
  | f :: rest => if index < rest.length then f.joinCycle index :: joinCycleAbove index rest else f :: rest

/-- The status and the outcome of a run that ends with the given result. -/
def outcome (f : Frame S) : Except Error Unit → Status × Attempt
  | .error _ => (.fail, .fail)
  | .ok () =>
    if f.doomed then (.fail, .fail)
    else if f.head.isSome then (.new, .provisional)
    else (.success, .success)

end Frame

/-- What a body may look at: the world, and the evaluator that runs it. -/
structure View (S : Schema) where
  world : World S
  home : SchedulerId
  frames : List (Frame S)
  /-- The cells that some evaluator is in the middle of reading, or that a unit
  on its stack has filled. -/
  holds : S.Key → Bool

namespace View

variable {S : Schema}

def scheduler (v : View S) : Scheduler S.Rule :=
  v.world.scheduler v.home

def current? (v : View S) : Option (WorkUnit S.Rule) :=
  v.frames.head?.map Frame.unit

def depth (v : View S) : Nat :=
  v.frames.length

/-- Whether a unit of that number is both running and the cell's resolver. -/
def resolves (v : View S) (c : S.Key) : Bool :=
  match v.current?, (v.world.cell c).resolver with
  | some u, some r => u.id == r.id
  | _, _ => false

end View

inductive Request (S : Schema) where
  | env (change : S.Env → S.Env)
  | look
  | register (label : String) (phase : Option Phase) (rule : S.Rule)
  | resolveWith (c : S.Key) (u : WorkUnit S.Rule)
  | addHook (c : S.Key) (h : S.Hook)
  | attempt (u : WorkUnit S.Rule)
  | probe (c : S.Key)
  | fill (c : S.Key) (v : S.Val c)
  | force (c : S.Key) (v : S.Val c)
  | soften (c : S.Key) (v : S.Val c)
  | reset (c : S.Key)
  | fail (d : Diagnostic)
  | report (d : Diagnostic)
  | note (e : Event)
  | await (ready : S.Env → Bool)
  | crash

/-- What a request is answered with. A change of the environment is answered
with the environment before it. -/
abbrev Request.Answer {S : Schema} : Request S → Type
  | .env _ => S.Env
  | .look => View S
  | .register _ _ _ => WorkUnit S.Rule
  | .attempt _ => Except Error Attempt
  | .probe c => Except Error (Probe (S.Val c))
  | _ => Unit

inductive Action (S : Schema) (α : Type) where
  | pure (a : α)
  | ask (r : Request S) (next : r.Answer → Action S α)

namespace Action

variable {S : Schema} {α β : Type}

protected def bind : Action S α → (α → Action S β) → Action S β
  | .pure a, f => f a
  | .ask r next, f => .ask r fun x => (next x).bind f

instance : Monad (Action S) where
  pure := .pure
  bind := Action.bind

def request (r : Request S) : Action S r.Answer :=
  .ask r .pure

def changeEnv (change : S.Env → S.Env) : Action S S.Env :=
  request (.env change)

def look : Action S (View S) :=
  request .look

def register (label : String) (phase : Option Phase) (rule : S.Rule) :
    Action S (WorkUnit S.Rule) :=
  request (.register label phase rule)

def attempt (u : WorkUnit S.Rule) : Action S (Except Error Attempt) :=
  request (.attempt u)

def probe (c : S.Key) : Action S (Except Error (Probe (S.Val c))) :=
  request (.probe c)

/-- Installs a unit of the running scheduler as the resolver of a cell. -/
def setRule (c : S.Key) (label : String) (phase : Option Phase) (rule : S.Rule) :
    Action S (WorkUnit S.Rule) := do
  let u ← register label phase rule
  request (.resolveWith c u)
  return u

/-- Stores the value of a rule, unless the cell has another resolver by now. -/
def deliver (c : S.Key) (v : S.Val c) : Action S Unit := do
  let view ← look
  if view.resolves c then request (.fill c v) else return

end Action

/-- How the names of a schema are to be understood: the body of each rule, what
a hook does when its cell gets a final value (it may pass a value on to another
cell), and what becomes of a report to the environment. -/
structure Model (S : Schema) where
  body : S.Rule → Action S (Except Error Unit)
  react : (c : S.Key) → S.Hook → S.Val c → S.Env → S.Env × Option ((d : S.Key) × S.Val d)
  receive : Diagnostic → S.Env → S.Env

end Attribution.Engine
