import Attribution.Engine.Evaluator
/-!
# Steps

One step of an evaluator: a hook is called, a request is answered, a unit is
claimed or settled. There is no step when the evaluator has finished, or must
wait for another one.
-/

namespace Attribution.Engine

variable {S : Schema} {α : Type}

namespace World

/-- Sends a report to where the scheduler's reports go. -/
def report (m : Model S) (w : World S) (origin : Option Nat) (i : SchedulerId) (d : Diagnostic) :
    World S :=
  let w := w.note origin (.reported d)
  match (w.scheduler i).reporter with
  | .buffer => w.modifyScheduler i fun s => { s with buffer := s.buffer.push d }
  | .custom => { w with env := m.receive d w.env }

end World

namespace Evaluator

def write (m : Model S) (w : World S) (e : Evaluator S α) (next : Write S)
    (rest : List (Write S)) : World S × Evaluator S α :=
  match next with
  | .force c v =>
    let hooks := (w.cell c).hooks
    ((w.setValue c (.forced v)).note e.worker (.forced (S.name c) hooks.length),
      { e with writes := hooks.map (.notify c · v) ++ rest })
  | .notify c h v =>
    let (env, passed) := m.react c h v w.env
    let more := match passed with
      | some ⟨d, x⟩ => .force d x :: rest
      | none => rest
    ({ w with env }, { e with writes := more })

/-- Reports a failure of the topmost unit, once. -/
def fail (m : Model S) (w : World S) (e : Evaluator S α) (d : Diagnostic) :
    World S × Evaluator S α :=
  match e.frames with
  | [] => (w.report m e.worker e.home d, e)
  | f :: rest =>
    if f.doomed then (w.note e.worker (.suppressed f.unit.label d.message), e)
    else
      let w := w.modifyScheduler e.home fun s => s.setStatus f.unit.id .runningWillFail
      (w.report m e.worker e.home d, { e with frames := { f with doomed := true } :: rest })

/-- Stores the value that the topmost unit computed. It stays soft while the
unit is part of a cycle or about to fail. -/
def fill (w : World S) (e : Evaluator S α) (c : S.Key) (v : S.Val c) : World S × Evaluator S α :=
  match e.frames with
  | [] => (w, { e with writes := .force c v :: e.writes })
  | f :: rest =>
    let e := { e with frames := { f with fills := f.fills ++ [c] } :: rest }
    if f.head.isSome || f.doomed then (w.soften e.worker c v, e)
    else (w, { e with writes := .force c v :: e.writes })

def startProbe (w : World S) (e : Evaluator S α) (c : S.Key)
    (next : Except Error (Probe (S.Val c)) → Code S α) : Evaluator S α :=
  let cell := w.cell c
  match cell.value, cell.resolver with
  | .forced v, _ => e.resume (next (.ok (.ready v)))
  | _, some u => { e with levels := .probed c u.label next :: e.levels, focus := .enter u }
  | .soft v, none => e.resume (next (.ok (.ready v)))
  | .unset, none => e.resume (next (.error (.missingResolver (S.name c))))

def finishProbe (w : World S) (e : Evaluator S α) (c : S.Key) (resolver : String)
    (next : Except Error (Probe (S.Val c)) → Code S α) (outcome : Attempt) :
    World S × Evaluator S α :=
  let give (p : Probe (S.Val c)) : Evaluator S α := e.resume (next (.ok p))
  match outcome, (w.cell c).value with
  | .success, .forced v | .success, .soft v => (w, give (.ready v))
  | .success, .unset => (w, e.resume (next (.error (.unfilled (S.name c) resolver))))
  | .provisional, .forced v | .provisional, .soft v => (w, give (.ready v))
  | .provisional, .unset => (w.soften e.worker c (S.fallback c), give (.cyclic (S.fallback c)))
  | .fail, .forced v => (w, give (.failed v))
  | .fail, _ =>
    (w, { give (.failed (S.sentinel c)) with writes := .force c (S.sentinel c) :: e.writes })
  | .failing, _ => (w, give (.failed (S.sentinel c)))
  | .cycle, .forced v => (w, give (.ready v))
  | .cycle, .soft v => (w, give (.cyclic v))
  | .cycle, .unset =>
    ((w.note e.worker (.fellBack (S.name c))).soften e.worker c (S.fallback c),
      give (.cyclic (S.fallback c)))

def serve (m : Model S) (w : World S) (e : Evaluator S α) (r : Request S)
    (next : r.Answer → Code S α) : Option (World S × Evaluator S α) :=
  match r, next with
  | .env change, next => some ({ w with env := change w.env }, e.resume (next w.env))
  | .look, next => some (w, e.resume (next (e.view w)))
  | .register label phase rule, next =>
    let (w, u) := w.register e.home label phase rule
    some (w, e.resume (next u))
  | .resolveWith c u, next => some (w.resolveWith c u, e.resume (next ()))
  | .addHook c h, next => some (w.addHook c h, e.resume (next ()))
  | .attempt u, next => some (w, { e with levels := .attempted next :: e.levels, focus := .enter u })
  | .probe c, next => some (w, e.startProbe w c next)
  | .fill c v, next => some ((e.resume (next ())).fill w c v)
  | .force c v, next => some (w, { e.resume (next ()) with writes := [.force c v] })
  | .soften c v, next => some (w.soften e.worker c v, e.resume (next ()))
  | .reset c, next => some (w.reset e.worker c, e.resume (next ()))
  | .fail d, next => some ((e.resume (next ())).fail m w d)
  | .report d, next => some (w.report m e.worker e.home d, e.resume (next ()))
  | .note event, next => some (w.note e.worker event, e.resume (next ()))
  | .await ready, next => if ready w.env then some (w, e.resume (next ())) else none
  | .crash, _ => some (w, e.crash)

def enter (m : Model S) (w : World S) (e : Evaluator S α) (u : WorkUnit S.Rule) :
    World S × Evaluator S α :=
  let s := w.scheduler e.home
  match e.admission s u with
  | .reentered index =>
    if s.status? u.id = some .runningWillFail then (w, e.reply (.ok .failing))
    else
      let w := w.modifyScheduler e.home fun s => s.setStatus u.id .runningRecursive
      (w.note e.worker (.cycle u.label e.frames.length),
        { e with frames := Frame.joinCycleAbove index e.frames }.reply (.ok .cycle))
  | .unknown => (w, e.reply (.error (.unknownUnit u.id)))
  | .settled outcome => (w, e.reply (.ok outcome))
  | .behind phase => (w, { e with focus := .barrier u phase })
  | .tooDeep limit => (w, e.reply (.error (.depthExceeded u.label limit)))
  | .granted =>
    let w := w.modifyScheduler e.home fun s => s.claim u.id e.id
    (w.note e.worker (.started u.label u.id),
      { e with
        frames := { unit := u } :: e.frames
        levels := .running :: e.levels
        focus := .act (.body (m.body u.rule)) })
  | .crossed .runningWillFail _ => (w, e.reply (.ok .failing))
  | .crossed _ index =>
    match e.frames.reverse[index]? with
    | none => (w, e.crash)
    | some head =>
      let w := w.modifyScheduler e.home fun s =>
        if s.status? head.unit.id = some .running then s.setStatus head.unit.id .runningRecursive
        else s
      (w.note e.worker (.crossCycle u.label head.unit.label),
        { e with frames := Frame.joinCycleAbove index e.frames }.reply (.ok .cycle))
  | .busy =>
    (w.modifyScheduler e.home fun s => s.startWaiting e.id u.id, { e with focus := .blocked u })

/-- Runs a unit of an earlier phase before `u` may start. Several units may be
waiting to be run; `pick` chooses among them. -/
def passBarrier (pick : Nat) (w : World S) (e : Evaluator S α) (u : WorkUnit S.Rule)
    (phase : Phase) : Option (World S × Evaluator S α) :=
  let s := w.scheduler e.home
  match s.earlierUnits phase with
  | [] => some (w, { e with focus := .enter u })
  | units =>
    match units.find? fun (_, b) => (Frame.indexOf? b.id e.frames).isSome with
    | some (earlier, b) =>
      some (w, e.reply (.error (.phaseOrder u.label phase b.label earlier)))
    | none =>
      let idle := units.filter fun (_, b) => s.status? b.id = some .new
      match idle[pick % idle.length]? with
      | some (earlier, b) =>
        some (w.note e.worker (.helping u.label b.label earlier),
          { e with levels := .helping u phase b earlier :: e.levels, focus := .enter b })
      | none => none

/-- The body of the topmost unit has ended: cells that it filled lose their
final value if the run was part of a cycle, and are to hold the sentinel if it
failed. -/
def close (w : World S) (e : Evaluator S α) (result : Except Error Unit) :
    World S × Evaluator S α :=
  let e := { e with focus := .closing result }
  match e.frames, result with
  | f :: _, .ok () =>
    if f.doomed then (w, { e with writes := f.fills.map fun c => .force c (S.sentinel c) })
    else if f.head.isSome then
      (f.fills.foldl (fun w c => w.modifyCell c fun cell => { cell with value := cell.value.softened }) w,
        e)
    else (w, e)
  | _, _ => (w, e)

def settle (w : World S) (e : Evaluator S α) (result : Except Error Unit) :
    Option (World S × Evaluator S α) :=
  match e.frames, e.levels with
  | f :: frames, .running :: levels =>
    let (status, outcome) := f.outcome result
    let w := w.modifyScheduler e.home fun s => s.settle f.unit status
    some (w.note e.worker (.finished f.unit.label status),
      { e with frames, levels }.reply (result.map fun _ => outcome))
  | _, _ => none

/-- An attempt comes back to the level that asked for it. -/
def answer (w : World S) (e : Evaluator S α) (outcome : Except Error Attempt) :
    Option (World S × Evaluator S α) :=
  match e.levels with
  | .attempted next :: levels => some (w, { e with levels }.resume (next outcome))
  | .probed c resolver next :: levels =>
    match outcome with
    | .error error => some (w, { e with levels }.resume (next (.error error)))
    | .ok outcome => some ({ e with levels }.finishProbe w c resolver next outcome)
  | .helping u phase b earlier :: levels =>
    match outcome with
    | .error error => some (w, { e with levels }.reply (.error error))
    | .ok .success | .ok .fail => some (w, { e with levels, focus := .barrier u phase })
    | .ok _ => some (w, { e with levels }.reply (.error (.phaseOrder u.label phase b.label earlier)))
  | _ => none

def step (m : Model S) (pick : Nat) (w : World S) (e : Evaluator S α) :
    Option (World S × Evaluator S α) :=
  match e.writes with
  | next :: rest => some (e.write m w next rest)
  | [] =>
    match e.focus with
    | .act (.top (.pure a)) => some (w, { e with focus := .done a })
    | .act (.top (.ask r next)) => e.serve m w r fun x => .top (next x)
    | .act (.body (.pure result)) => some (e.close w result)
    | .act (.body (.ask r next)) => e.serve m w r fun x => .body (next x)
    | .enter u => some (e.enter m w u)
    | .blocked u =>
      match e.admission ((w.scheduler e.home).stopWaiting e.id) u with
      | .busy => none
      | _ => some (e.enter m (w.modifyScheduler e.home fun s => s.stopWaiting e.id) u)
    | .barrier u phase => e.passBarrier pick w u phase
    | .closing result => e.settle w result
    | .answer outcome => e.answer w outcome
    | .done _ => none
    | .crashed => none

end Evaluator

end Attribution.Engine
