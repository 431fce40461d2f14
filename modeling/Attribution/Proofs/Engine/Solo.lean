import Mathlib.Logic.Relation
import Attribution.Engine.Pool
import Attribution.Proofs.Engine.Ends
/-!
# Pools with one worker

A worker that is alone carries out its jobs one after the other, as a caller
would. So what holds before the first job and is kept by every job that succeeds
holds when the pool has finished (`Pool.solo_of_moves`, `Pool.Solo.finished`).
-/

namespace Attribution.Engine

variable {S : Schema} {α : Type}

namespace Evaluator

/-- The evaluator has nothing left to do, and this is its result. -/
structure Gave (e : Evaluator S α) (x : α) : Prop where
  focus : e.focus = .done x
  writes : e.writes = []

/-- The evaluator may be given something to do. -/
structure Idle (home : SchedulerId) (e : Evaluator S α) : Prop where
  home : e.home = home
  frames : e.frames = []
  levels : e.levels = []
  writes : e.writes = []

theorem Gave.step_eq_none {e : Evaluator S α} {x : α} (h : e.Gave x) (m : Model S) (pick : Nat)
    (w : World S) : e.step m pick w = none := by
  rw [step, h.writes, h.focus]

theorem Gave.allows {e : Evaluator S α} {x : α} (h : e.Gave x) (J : Watch S) (w : World S) :
    J.Allows w e := by
  refine Watch.allows_quiet (request?_eq_none fun code => ?_) ?_ ?_
  all_goals
    rw [h.focus]
    exact nofun

/-! ## Cells held by others -/

variable {m : Model S} {w w' : World S} {e e' : Evaluator S α}

theorem elsewhere_report (m : Model S) (w : World S) (origin : Option Nat) (i : SchedulerId)
    (d : Diagnostic) : (w.report m origin i d).elsewhere = w.elsewhere := by
  unfold World.report
  dsimp only
  split
  · rfl
  · rfl

theorem elsewhere_reset (w : World S) (origin : Option Nat) (c : S.Key) :
    (w.reset origin c).elsewhere = w.elsewhere := by
  unfold World.reset
  dsimp only
  split
  · rfl
  · split
    · rfl
    · rfl

theorem elsewhere_write (next : Write S) (rest : List (Write S)) :
    (e.write m w next rest).1.elsewhere = w.elsewhere := by
  cases next with
  | force c v => rfl
  | notify c h v => rfl

theorem elsewhere_fail (d : Diagnostic) : (e.fail m w d).1.elsewhere = w.elsewhere := by
  unfold fail
  split
  · exact elsewhere_report m w _ _ d
  · split
    · rfl
    · exact elsewhere_report m _ _ _ d

theorem elsewhere_fill (c : S.Key) (v : S.Val c) : (e.fill w c v).1.elsewhere = w.elsewhere := by
  unfold fill
  split
  · rfl
  · dsimp only
    split
    · rfl
    · rfl

theorem elsewhere_serve {r : Request S} {next : r.Answer → Code S α}
    (h : e.serve m w r next = some (w', e')) : w'.elsewhere = w.elsewhere := by
  cases r with
  | fill c v =>
    have hfill := elsewhere_fill (w := w) (e := e.resume (next ())) c v
    rw [Option.some.inj h] at hfill
    exact hfill
  | fail d =>
    have hfail := elsewhere_fail (m := m) (w := w) (e := e.resume (next ())) d
    rw [Option.some.inj h] at hfail
    exact hfail
  | reset c =>
    cases h
    exact elsewhere_reset w _ c
  | report d =>
    cases h
    exact elsewhere_report m w _ _ d
  | await ready =>
    simp only [serve] at h
    split at h
    · cases h
      rfl
    · cases h
  | _ =>
    cases h
    rfl

theorem elsewhere_enter (u : WorkUnit S.Rule) : (e.enter m w u).1.elsewhere = w.elsewhere := by
  unfold enter
  dsimp only
  cases e.admission (w.scheduler e.home) u with
  | reentered index =>
    dsimp only
    split
    · rfl
    · rfl
  | crossed status index =>
    cases status with
    | runningWillFail => rfl
    | _ =>
      dsimp only
      split
      · rfl
      · rfl
  | _ => rfl

theorem elsewhere_foldl_softened (cells : List S.Key) :
    (cells.foldl (fun w c =>
      w.modifyCell c fun cell => { cell with value := cell.value.softened }) w).elsewhere =
      w.elsewhere := by
  induction cells generalizing w with
  | nil => rfl
  | cons c rest ih =>
    rw [List.foldl_cons, ih]
    rfl

theorem elsewhere_close (result : Except Error Unit) :
    (e.close w result).1.elsewhere = w.elsewhere := by
  unfold close
  dsimp only
  split
  · split
    · rfl
    · split
      · exact elsewhere_foldl_softened _
      · rfl
  · rfl

theorem elsewhere_finishProbe (c : S.Key) (resolver : String)
    (next : Except Error (Probe (S.Val c)) → Code S α) (outcome : Attempt) :
    (e.finishProbe w c resolver next outcome).1.elsewhere = w.elsewhere := by
  unfold finishProbe
  dsimp only
  split
  all_goals rfl

theorem elsewhere_passBarrier {pick : Nat} {u : WorkUnit S.Rule} {phase : Phase}
    (h : e.passBarrier pick w u phase = some (w', e')) : w'.elsewhere = w.elsewhere := by
  unfold passBarrier at h
  dsimp only at h
  split at h
  · cases h
    rfl
  · split at h
    · cases h
      rfl
    · split at h
      · cases h
        rfl
      · cases h

theorem elsewhere_settle {result : Except Error Unit} (h : e.settle w result = some (w', e')) :
    w'.elsewhere = w.elsewhere := by
  unfold settle at h
  split at h
  · cases h
    rfl
  · cases h

theorem elsewhere_answer {outcome : Except Error Attempt}
    (h : e.answer w outcome = some (w', e')) : w'.elsewhere = w.elsewhere := by
  unfold answer at h
  split at h
  · cases h
    rfl
  · rename_i c resolver next levels _
    split at h
    · cases h
      rfl
    · rename_i outcome
      have hfinish := elsewhere_finishProbe (w := w) (e := { e with levels }) c resolver next
        outcome
      rw [Option.some.inj h] at hfinish
      exact hfinish
  · split at h
    all_goals
      cases h
      rfl
  · cases h

theorem elsewhere_step {pick : Nat} (h : e.step m pick w = some (w', e')) :
    w'.elsewhere = w.elsewhere := by
  unfold step at h
  split at h
  · rename_i next rest _
    have hwrite := elsewhere_write (m := m) (w := w) (e := e) next rest
    rw [Option.some.inj h] at hwrite
    exact hwrite
  · split at h
    · cases h
      rfl
    · exact elsewhere_serve h
    · rename_i result _
      have hclose := elsewhere_close (w := w) (e := e) result
      rw [Option.some.inj h] at hclose
      exact hclose
    · exact elsewhere_serve h
    · rename_i u _
      have henter := elsewhere_enter (m := m) (w := w) (e := e) u
      rw [Option.some.inj h] at henter
      exact henter
    · rename_i u _
      split at h
      · cases h
      · have henter := elsewhere_enter (m := m)
          (w := w.modifyScheduler e.home fun s => s.stopWaiting e.id) (e := e) u
        rw [Option.some.inj h] at henter
        exact henter
    · exact elsewhere_passBarrier h
    · exact elsewhere_settle h
    · exact elsewhere_answer h
    · cases h
    · cases h

end Evaluator

theorem Leads.elsewhere_eq {m : Model S} {w w' : World S} {e e' : Evaluator S α}
    (h : Leads m w e w' e') : w'.elsewhere = w.elsewhere := by
  induction h with
  | refl => rfl
  | step pick hstep _ ih => exact ih.trans (Evaluator.elsewhere_step hstep)

/-! ## Runs of a pool -/

namespace Pool

def assemble (w : World S) (home : SchedulerId) (count : Nat) (jobs : List (Job S)) : Pool S :=
  let w := w.note none (.poolStarted count jobs.length)
  { world := (hire w home 0 count).1, queue := Job.sorted jobs
    workers := (hire w home 0 count).2 }

def dismissed (p : Pool S) : World S :=
  match p.lastEvent? with
  | some e => p.world.note none e
  | none => p.world

def Moves (m : Model S) (p p' : Pool S) : Prop :=
  ∃ i pick, p.step m i pick = some p'

theorem moves_of_turn {m : Model S} {p p' : Pool S} {i : Nat} {order : List Nat}
    (h : p.turn m order = some (p', i)) : Moves m p p' := by
  induction order with
  | nil => cases h
  | cons k rest ih =>
    rw [turn] at h
    split at h
    · rename_i hstep
      cases h
      exact ⟨i, 0, hstep⟩
    · exact ih h

theorem moves_run (m : Model S) (limit current : Nat) (p : Pool S) :
    Relation.ReflTransGen (Moves m) p (run m limit current p) := by
  induction limit generalizing current p with
  | zero => exact .refl
  | succ limit ih =>
    rw [run]
    split
    · rename_i hturn
      exact .head (moves_of_turn hturn) (ih _ _)
    · exact .refl

/-! ## A single worker -/

variable (m : Model S) (home : SchedulerId) (I : World S → Prop)

/-- An evaluator has carried out a job. -/
def Served (w : World S) (e : Evaluator S (Except Error Unit)) : Prop :=
  ∃ r, e.Gave r ∧ e.Idle home ∧ (r = .ok () → I w)

/-- The job comes to an end and, if it succeeds, keeps `I`. -/
def Keeps (job : Job S) : Prop :=
  ∀ (w : World S) (e : Evaluator S (Except Error Unit)), I w → e.Idle home →
    Ends m (Served home I) w (e.resume (.top job.action))

/-- What is known of a pool whose only worker has not failed. -/
def Orderly (w : World S) (worker : Worker S) : Prop :=
  match worker.state with
  | .busy => Ends m (Served home I) w worker.evaluator
  | .crashed => True
  | _ => worker.evaluator.Idle home ∧ I w

structure Solo (p : Pool S) (worker : Worker S) : Prop where
  alone : p.workers = [worker]
  elsewhere : p.world.elsewhere = fun _ => false
  jobs : ∀ job ∈ p.queue, Keeps m home I job
  orderly : p.failure = none → Orderly m home I p.world worker

variable {m home I} {p p' : Pool S} {worker : Worker S}

theorem heldBeside_solo (h : p.workers = [worker]) : p.heldBeside 0 = fun _ => false := by
  funext c
  rw [heldBeside, h]
  rfl

theorem solo_setWorker {worker' : Worker S} (h : p.workers = [worker])
    (helsewhere : p.world.elsewhere = fun _ => false) (hjobs : ∀ job ∈ p.queue, Keeps m home I job)
    (horderly : p.failure = none → Orderly m home I p.world worker') :
    Solo m home I (p.setWorker 0 worker') worker' where
  alone := by
    rw [setWorker, h]
    rfl
  elsewhere := helsewhere
  jobs := hjobs
  orderly := horderly

theorem Served.step_eq_none {w : World S} {e : Evaluator S (Except Error Unit)}
    (h : Served home I w e) (pick : Nat) : e.step m pick w = none := by
  obtain ⟨r, hgave, -⟩ := h
  exact hgave.step_eq_none m pick w

theorem Solo.move (h : Solo m home I p worker) (hm : p.Moves m p') :
    ∃ worker', Solo m home I p' worker' := by
  obtain ⟨i, pick, hstep⟩ := hm
  obtain ⟨world, queue, failure, workers⟩ := p
  obtain rfl : workers = [worker] := h.alone
  obtain ⟨evaluator, state, completed⟩ := worker
  have horderly := h.orderly
  unfold step at hstep
  cases i with
  | succ i => cases hstep
  | zero =>
    dsimp only [List.getElem?_cons_zero] at hstep
    cases state with
    | ready =>
      cases hstep
      refine ⟨_, solo_setWorker rfl h.elsewhere h.jobs fun hnone => ?_⟩
      obtain rfl : failure = none := hnone
      exact horderly rfl
    | picking =>
      cases queue with
      | nil =>
        cases hstep
        exact ⟨_, solo_setWorker rfl h.elsewhere h.jobs horderly⟩
      | cons job queue =>
        cases hstep
        refine ⟨_, solo_setWorker rfl h.elsewhere
          (fun j hj => h.jobs j (List.mem_cons_of_mem _ hj)) fun hnone => ?_⟩
        obtain ⟨hidle, hI⟩ := horderly hnone
        exact h.jobs job List.mem_cons_self world evaluator hI hidle
    | busy =>
      dsimp only at hstep
      split at hstep
      · rename_i hfocus hwrites
        cases hstep
        refine ⟨_, solo_setWorker rfl h.elsewhere h.jobs fun hnone => ?_⟩
        have hgave : evaluator.Gave (.ok ()) := ⟨hfocus, hwrites⟩
        obtain ⟨r, hr, hidle, hI⟩ := (horderly hnone).result (hgave.step_eq_none m 0 world)
        have heq := hr.focus.symm.trans hfocus
        cases heq
        exact ⟨hidle, hI rfl⟩
      · -- A failed pool is not spoken of.
        cases hstep
        refine ⟨_, solo_setWorker rfl h.elsewhere h.jobs fun hnone => ?_⟩
        cases failure with
        | none => cases hnone
        | some x => cases hnone
      · cases hstep
        exact ⟨_, solo_setWorker rfl h.elsewhere h.jobs fun _ => trivial⟩
      · have helsewhere : world.elsewhere = fun _ => false := h.elsewhere
        rw [heldBeside_solo rfl, ← helsewhere, Option.map_eq_some_iff] at hstep
        obtain ⟨⟨w, e⟩, hnext, rfl⟩ := hstep
        have hsame : { w with elsewhere := world.elsewhere } = w := by
          rw [← Evaluator.elsewhere_step hnext]
        refine ⟨_, solo_setWorker rfl helsewhere h.jobs fun hnone => ?_⟩
        dsimp only
        rw [hsame]
        exact (horderly hnone).of_leads (fun _ _ hserved => hserved.step_eq_none)
          (.step pick hnext (.refl w e))
    | stopped => cases hstep
    | crashed => cases hstep

theorem Solo.finished (h : Solo m home I p worker) {completed : List Nat}
    (hresult : p.result = .finished completed) : I p.world := by
  obtain ⟨world, queue, failure, workers⟩ := p
  obtain rfl : workers = [worker] := h.alone
  obtain ⟨evaluator, state, completed⟩ := worker
  cases failure with
  | none =>
    have horderly := h.orderly rfl
    cases state with
    | stopped => exact horderly.2
    | _ => cases hresult
  | some x =>
    cases state with
    | _ => cases hresult

theorem solo_of_moves {w : World S} {jobs : List (Job S)}
    (helsewhere : w.elsewhere = fun _ => false) (hjobs : ∀ job ∈ jobs, Keeps m home I job)
    (hI : I (assemble w home 1 jobs).world)
    (hm : Relation.ReflTransGen (Moves m) (assemble w home 1 jobs) p) :
    ∃ worker, Solo m home I p worker := by
  induction hm with
  | refl =>
    refine ⟨_, ⟨rfl, helsewhere, fun job hjob => ?_, fun _ => ⟨⟨rfl, rfl, rfl, rfl⟩, hI⟩⟩⟩
    exact hjobs job ((List.mergeSort_perm jobs _).mem_iff.1 hjob)
  | tail _ hmove ih =>
    obtain ⟨worker, hsolo⟩ := ih
    exact hsolo.move hmove

end Pool

end Attribution.Engine
