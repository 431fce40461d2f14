import Mathlib.Data.Nat.Find
import Mathlib.Order.WellFounded
import Attribution.Proofs.Engine.Duty
import Attribution.Proofs.Engine.Sheet
/-!
# Dispatch of jobs

Every way in which the workers of a pool may take turns. The log of an execution is the list of
all duties so far.

* `Dispatched` is what the log says of the pool, and `Dispatched.step` that a duty preserves it;
* `Execution.CarriesOut` is the life of a job from being taken to its end;
* `Execution.dispatch` is the result.
-/

namespace Attribution.Engine

variable {S : Schema}

/-! ## The order of jobs -/

namespace Job

/-- Jobs without a phase come first, then the earlier phases. -/
def NotAfter (a b : Job S) : Prop :=
  ∀ p, a.phase = some p → ∃ q, b.phase = some q ∧ p ≤ q

/-- The jobs in the order of their phases; those of the same phase keep their order. -/
structure StablySorted (jobs result : List (Job S)) : Prop where
  perm : result.Perm jobs
  pairwise : result.Pairwise NotAfter
  stable : ∀ phase : Option Phase,
    result.filter (·.phase = phase) = jobs.filter (·.phase = phase)

theorem rank_le_iff {a b : Job S} : a.rank ≤ b.rank ↔ a.NotAfter b := by
  unfold rank NotAfter
  cases a.phase with
  | none => simp
  | some p => cases b.phase <;> simp

theorem rank_inj {a b : Job S} : a.rank = b.rank ↔ a.phase = b.phase := by
  unfold rank
  cases a.phase <;> cases b.phase <;> simp

theorem stablySorted_sorted (jobs : List (Job S)) : StablySorted jobs (sorted jobs) := by
  have htrans : ∀ a b c : Job S, decide (a.rank ≤ b.rank) = true →
      decide (b.rank ≤ c.rank) = true → decide (a.rank ≤ c.rank) = true := by
    intro a b c hab hbc
    exact decide_eq_true ((of_decide_eq_true hab).trans (of_decide_eq_true hbc))
  have htotal : ∀ a b : Job S, (decide (a.rank ≤ b.rank) || decide (b.rank ≤ a.rank)) = true := by
    intro a b
    simpa using Nat.le_total a.rank b.rank
  have hperm : (sorted jobs).Perm jobs := List.mergeSort_perm jobs _
  refine ⟨hperm, ?_, fun phase => ?_⟩
  · exact (List.pairwise_mergeSort htrans htotal jobs).imp fun hab =>
      rank_le_iff.1 (of_decide_eq_true hab)
  · -- Jobs of one phase are sorted already, so that they keep their order.
    have hsame : (jobs.filter (·.phase = phase)).Pairwise
        fun a b => decide (a.rank ≤ b.rank) = true := by
      refine List.Pairwise.imp_of_mem (R := fun _ _ => True) (fun ha hb _ => ?_)
        (List.pairwise_of_forall fun _ _ => trivial)
      have hphase := (of_decide_eq_true (List.mem_filter.1 ha).2).trans
        (of_decide_eq_true (List.mem_filter.1 hb).2).symm
      exact decide_eq_true (rank_inj.2 hphase).le
    have hsub := (List.sublist_mergeSort htrans htotal hsame List.filter_sublist).filter
      (·.phase = phase)
    simp only [List.filter_filter, Bool.and_self] at hsub
    exact (hsub.eq_of_length (hperm.filter _).length_eq.symm).symm

end Job

namespace Pool

variable {m : Model S} {p p' : Pool S} {i pick : Nat}

/-! ## What the log says of the pool -/

def started (log : List (Nat × Duty S)) : List (Job S) :=
  log.filterMap (·.2.job?)

def failures (log : List (Nat × Duty S)) : List Error :=
  log.filterMap (·.2.error?)

theorem started_append (log : List (Nat × Duty S)) (duty : Duty S) :
    started (log ++ [(i, duty)]) = started log ++ duty.job?.toList := by
  cases duty <;> simp [started, Duty.job?]

theorem failures_append (log : List (Nat × Duty S)) (duty : Duty S) :
    failures (log ++ [(i, duty)]) = failures log ++ duty.error?.toList := by
  cases duty <;> simp [failures, Duty.error?]

theorem foldl_jobs (jobs : List Nat) (start : Nat) :
    jobs.foldl (fun total jobs => total + jobs) start = start + totalJobs jobs := by
  induction jobs generalizing start with
  | nil => rfl
  | cons first rest ih =>
    rw [totalJobs, List.foldl_cons, List.foldl_cons, ih, ih (0 + first)]
    omega

theorem totalJobs_cons (first : Nat) (rest : List Nat) :
    totalJobs (first :: rest) = first + totalJobs rest := by
  rw [totalJobs, List.foldl_cons, foldl_jobs, Nat.zero_add]

def tally (p : Pool S) (f : Worker S → Nat) : Nat :=
  totalJobs (p.workers.map f)

section Tally

variable {worker worker' : Worker S}

theorem totalJobs_set (f : Worker S → Nat) {workers : List (Worker S)}
    (h : workers[i]? = some worker) : totalJobs ((workers.set i worker').map f) + f worker =
      totalJobs (workers.map f) + f worker' := by
  induction workers generalizing i with
  | nil => cases h
  | cons first rest ih =>
    cases i with
    | zero =>
      cases h
      simp only [List.set_cons_zero, List.map_cons, totalJobs_cons]
      omega
    | succ i =>
      have hrest := ih h
      simp only [List.set_cons_succ, List.map_cons, totalJobs_cons]
      omega

theorem tally_set (h : p.workers[i]? = some worker) (hset : p'.workers = p.workers.set i worker')
    (f : Worker S → Nat) : p'.tally f + f worker = p.tally f + f worker' := by
  rw [tally, hset]
  exact totalJobs_set f h

theorem totalJobs_le (f : Worker S → Nat) (bound : Nat) {workers : List (Worker S)}
    (h : ∀ worker ∈ workers, f worker ≤ bound) :
    totalJobs (workers.map f) ≤ workers.length * bound := by
  induction workers with
  | nil => exact Nat.zero_le _
  | cons first rest ih =>
    obtain ⟨hfirst, hrest⟩ := List.forall_mem_cons.1 h
    rw [List.map_cons, totalJobs_cons, List.length_cons, Nat.succ_mul, Nat.add_comm]
    exact Nat.add_le_add (ih hrest) hfirst

theorem tally_hand_le (p : Pool S) : p.tally (·.state.hand) ≤ p.workers.length := by
  have h := totalJobs_le (·.state.hand) 1 fun worker (_ : worker ∈ p.workers) =>
    worker.state.hand_le_one
  rwa [Nat.mul_one] at h

theorem tally_hand_lt (h : p.workers[i]? = some worker) (hstate : worker.state ≠ .picking) :
    p.tally (·.state.hand) < p.workers.length := by
  -- If the worker were about to take a job, there would be one more.
  let other : Worker S := { worker with state := .picking }
  have htally : (p.setWorker i other).tally (·.state.hand) + worker.state.hand =
      p.tally (·.state.hand) + other.state.hand := tally_set h rfl (·.state.hand)
  have hfull := tally_hand_le (p.setWorker i other)
  have hzero : worker.state.hand = 0 := by
    cases hhand : worker.state with
    | picking => exact absurd hhand hstate
    | _ => rfl
  rw [setWorker, List.length_set] at hfull
  rw [setWorker, hzero, show other.state.hand = 1 from rfl] at htally
  omega

end Tally

def evaluator? (p : Pool S) (i : Nat) : Option (Evaluator S (Except Error Unit)) :=
  p.workers[i]?.map Worker.evaluator

theorem evaluator?_eq {worker : Worker S} (h : p.workers[i]? = some worker) :
    p.evaluator? i = some worker.evaluator := by
  rw [evaluator?, h]
  rfl

/-- The evaluator of worker `i` takes a step in the world of the pool, and nothing else is done
to either. -/
def Works (m : Model S) (i : Nat) (p p' : Pool S) : Prop :=
  ∃ pick e w' e', p.evaluator? i = some e ∧
    e.step m pick { p.world with elsewhere := p.heldBeside i } = some (w', e') ∧
    p'.evaluator? i = some e' ∧ p'.world = { w' with elsewhere := fun _ => false }

theorem works_of_drives {worker worker' : Worker S}
    (h : Duty.work.Drives m (p.heldBeside i) p.world worker.evaluator p'.world worker'.evaluator)
    (hworker : p.workers[i]? = some worker) (hworker' : p'.workers[i]? = some worker') :
    p.Works m i p' := by
  generalize hw : p'.world = world' at h
  generalize he : worker'.evaluator = e' at h
  cases h with
  | work pick hstep =>
    refine ⟨pick, _, _, _, evaluator?_eq hworker, hstep, ?_, hw⟩
    rw [← he]
    exact evaluator?_eq hworker'

/-- A worker that is looking for a job has nothing left to write. -/
def Rested (p : Pool S) : Prop :=
  ∀ worker ∈ p.workers, worker.state = .ready ∨ worker.state = .picking →
    worker.evaluator.writes = []

def Busy (p : Pool S) (i : Nat) : Prop :=
  ∃ worker, p.workers[i]? = some worker ∧ worker.state = .busy

theorem Busy.state_eq {worker : Worker S} (h : p.Busy i) (hworker : p.workers[i]? = some worker) :
    worker.state = .busy := by
  obtain ⟨busy, hlookup, hstate⟩ := h
  cases hworker.symm.trans hlookup
  exact hstate

def OnlyWorked (i : Nat) (log : List (Nat × Duty S)) : Prop :=
  ∀ entry ∈ log, entry.1 = i → entry.2 = .work

/-- The job that worker `i` took before the log began is worked on, or has come to an end. -/
def Attended (i : Nat) (log : List (Nat × Duty S)) (p : Pool S) : Prop :=
  (p.Busy i ∧ OnlyWorked i log) ∨
    ∃ during duty rest, log = during ++ (i, duty) :: rest ∧ OnlyWorked i during ∧
      (duty = .finish ∨ ∃ error, duty = .fail error)

/-- What is known of a pool of `count` workers from its log. -/
structure Dispatched (jobs : List (Job S)) (count : Nat) (log : List (Nat × Duty S))
    (p : Pool S) : Prop where
  length : p.workers.length = count
  order : started log ++ p.queue = Job.sorted jobs
  failure : p.failure = (failures log).head?
  counts : p.tally (fun worker => worker.completed + worker.state.load) + (failures log).length =
    (started log).length
  upright : ∀ worker ∈ p.workers, worker.state ≠ .crashed
  drained : p.failure = none → ∀ worker ∈ p.workers, worker.state = .stopped → p.queue = []
  attended : ∀ before i job after, log = before ++ (i, .take job) :: after → Attended i after p
  late : ∀ before i error after, log = before ++ (i, .fail error) :: after →
    failures before = [] → (started after).length + p.tally (·.state.hand) < count

theorem append_cons_cases {log before after : List (Nat × Duty S)} {entry last : Nat × Duty S}
    (h : log ++ [last] = before ++ entry :: after) :
    (after = [] ∧ log = before ∧ last = entry) ∨
      ∃ after', after = after' ++ [last] ∧ log = before ++ entry :: after' := by
  rcases List.eq_nil_or_concat after with rfl | ⟨after', x, rfl⟩
  · obtain ⟨hlog, hlast⟩ := List.append_inj' h rfl
    exact .inl ⟨rfl, hlog, (List.cons.inj hlast).1⟩
  · rw [List.concat_eq_append] at h ⊢
    rw [← List.cons_append, ← List.append_assoc] at h
    obtain ⟨hlog, hlast⟩ := List.append_inj' h rfl
    cases hlast
    exact .inr ⟨after', rfl, hlog⟩

section Step

variable {jobs : List (Job S)} {count : Nat} {log : List (Nat × Duty S)}
  {worker worker' : Worker S} {duty : Duty S}

theorem busy_set_iff (hworker : p.workers[i]? = some worker)
    (hset : p'.workers = p.workers.set i worker') (j : Nat) :
    p'.Busy j ↔ if j = i then worker'.state = .busy else p.Busy j := by
  have hi : i < p.workers.length := (List.getElem?_eq_some_iff.1 hworker).1
  unfold Busy
  rw [hset]
  split
  · next hj =>
    subst hj
    rw [List.getElem?_set_self hi]
    simp
  · next hj => rw [List.getElem?_set_ne (Ne.symm hj)]

theorem Rested.step (h : p.Rested) (hworker : p.workers[i]? = some worker)
    (hset : p'.workers = p.workers.set i worker')
    (hdoes : duty.Does (p.desk worker) (p'.desk worker'))
    (hdrives : duty.Drives m (p.heldBeside i) p.world worker.evaluator p'.world worker'.evaluator) :
    p'.Rested := by
  intro other hother hstate
  rw [hset] at hother
  rcases List.mem_or_eq_of_mem_set hother with hother | rfl
  · exact h other hother hstate
  · have hself := h worker (List.mem_of_getElem? hworker)
    exact hdrives.writes_eq_nil hdoes hself hstate

theorem Attended.step {j : Nat} (h : Attended j log p) (hworker : p.workers[i]? = some worker)
    (hset : p'.workers = p.workers.set i worker')
    (hdoes : duty.Does (p.desk worker) (p'.desk worker')) (hcrash : duty ≠ .crash) :
    Attended j (log ++ [(i, duty)]) p' := by
  rcases h with ⟨hbusy, honly⟩ | ⟨during, ended, rest, rfl, honly, hended⟩
  · have hgrown : OnlyWorked j (log ++ [(i, duty)]) ↔ (i = j → duty = .work) := by
      constructor
      · intro h
        exact h (i, duty) (List.mem_append_right _ List.mem_cons_self)
      · rintro h entry hentry
        rcases List.mem_append.1 hentry with hentry | hentry
        · exact honly entry hentry
        · cases List.mem_singleton.1 hentry
          exact h
    by_cases hij : i = j
    · subst hij
      rcases hdoes.cases_of_busy (hbusy.state_eq hworker) hcrash with ⟨hwork, hstate'⟩ | hend
      · refine .inl ⟨(busy_set_iff hworker hset i).2 ?_, hgrown.2 fun _ => hwork⟩
        rw [if_pos rfl]
        exact hstate'
      · exact .inr ⟨log, duty, [], rfl, honly, hend⟩
    · refine .inl ⟨(busy_set_iff hworker hset j).2 ?_, hgrown.2 fun h => absurd h hij⟩
      rwa [if_neg (Ne.symm hij)]
  · exact .inr ⟨during, ended, rest ++ [(i, duty)], by simp, honly, hended⟩

namespace Dispatched

theorem step (h : Dispatched jobs count log p) (hworker : p.workers[i]? = some worker)
    (hset : p'.workers = p.workers.set i worker')
    (hdoes : duty.Does (p.desk worker) (p'.desk worker')) (hcrash : duty ≠ .crash) :
    Dispatched jobs count (log ++ [(i, duty)]) p' where
  length := by rw [hset, List.length_set, h.length]
  order := by
    rw [started_append, List.append_assoc, ← h.order]
    exact congrArg _ hdoes.queue_eq
  failure := by
    rw [failures_append, show p'.failure = p.failure.or duty.error? from hdoes.failure_eq, h.failure]
    cases failures log with
    | nil => cases duty.error? <;> rfl
    | cons error rest => rfl
  counts := by
    have hcount := hdoes.count_eq hcrash
    have htally := tally_set hworker hset fun worker => worker.completed + worker.state.load
    have hcounts := h.counts
    simp only [desk] at hcount
    rw [started_append, failures_append, List.length_append, List.length_append]
    omega
  upright := by
    intro other hother
    rw [hset] at hother
    rcases List.mem_or_eq_of_mem_set hother with hother | rfl
    · exact h.upright other hother
    · exact hdoes.state_ne_crashed hcrash
  drained := by
    intro hnone other hother hstopped
    rw [hset] at hother
    rcases List.mem_or_eq_of_mem_set hother with hother | rfl
    · have hfailure : p.failure.or duty.error? = none := hdoes.failure_eq.symm.trans hnone
      have hqueue : duty.job?.toList ++ p'.queue = p.queue := hdoes.queue_eq
      rw [h.drained (Option.or_eq_none_iff.1 hfailure).1 other hother hstopped] at hqueue
      exact (List.append_eq_nil_iff.1 hqueue).2
    · exact hdoes.queue_eq_nil hnone hstopped
  attended := by
    intro before j job after hlog
    rcases append_cons_cases hlog with ⟨rfl, rfl, hlast⟩ | ⟨after, rfl, rfl⟩
    · cases hlast
      refine .inl ⟨(busy_set_iff hworker hset i).2 ?_, nofun⟩
      rw [if_pos rfl]
      exact (hdoes.state_of_take rfl).2
    · exact (h.attended before j job after rfl).step hworker hset hdoes hcrash
  late := by
    intro before j error after hlog hbefore
    have htally := tally_set hworker hset fun worker => worker.state.hand
    rcases append_cons_cases hlog with ⟨rfl, rfl, hlast⟩ | ⟨after, rfl, rfl⟩
    · cases hlast
      have hi : i < p.workers.length := (List.getElem?_eq_some_iff.1 hworker).1
      have hlookup : p'.workers[i]? = some worker' := by rw [hset, List.getElem?_set_self hi]
      have hstopped : worker'.state = .stopped := hdoes.stopped_of_fail rfl
      have hlt := tally_hand_lt hlookup (by rw [hstopped]; exact nofun)
      rw [hset, List.length_set, h.length] at hlt
      rwa [show started ([] : List (Nat × Duty S)) = [] from rfl, List.length_nil, Nat.zero_add]
    · have hlate := h.late before j error after rfl hbefore
      have hfailure : p.failure ≠ none := by
        rw [h.failure]
        simp [failures, Duty.error?]
      have hhand := hdoes.hand_le hfailure
      rw [started_append, List.length_append]
      simp only [desk] at hhand
      omega

end Dispatched

end Step

theorem of_mem_hire {w : World S} {home : SchedulerId} {i count : Nat} {worker : Worker S}
    (h : worker ∈ (hire w home i count).2) :
    worker.state = .ready ∧ worker.completed = 0 ∧ worker.evaluator.writes = [] := by
  induction count generalizing w i with
  | zero => cases h
  | succ count ih =>
    rcases List.mem_cons.1 h with rfl | h
    · exact ⟨rfl, rfl, rfl⟩
    · exact ih h

theorem length_hire (w : World S) (home : SchedulerId) (i count : Nat) :
    (hire w home i count).2.length = count := by
  induction count generalizing w i with
  | zero => rfl
  | succ count ih => exact congrArg (· + 1) (ih _ _)

theorem dispatched_assemble (w : World S) (home : SchedulerId) (count : Nat) (jobs : List (Job S)) :
    Dispatched jobs count [] (assemble w home count jobs) where
  length := length_hire _ home 0 count
  order := rfl
  failure := rfl
  counts := by
    refine Nat.le_zero.1 (totalJobs_le _ 0 fun worker hworker => ?_)
    obtain ⟨hstate, hcompleted, -⟩ := of_mem_hire hworker
    rw [hstate, hcompleted]
    exact Nat.le_refl 0
  upright := by
    intro worker hworker
    rw [(of_mem_hire hworker).1]
    exact nofun
  drained := by
    intro _ worker hworker hstopped
    cases (of_mem_hire hworker).1.symm.trans hstopped
  attended before i job after hlog := by simp at hlog
  late before i error after hlog := by simp at hlog

/-! ## The end of a pool -/

theorem isOver_iff : p.isOver = true ↔
    ∀ worker ∈ p.workers, worker.state = .stopped ∨ worker.state = .crashed := by
  simp [isOver]

theorem isOver_of_step_eq_none (hnone : ∀ i pick, p.step m i pick = none)
    (hidle : ∀ i, ¬p.Busy i) : p.isOver = true := by
  rw [isOver_iff]
  intro worker hworker
  obtain ⟨i, hi⟩ := List.mem_iff_getElem?.1 hworker
  have hstep := hnone i 0
  rw [step, hi] at hstep
  dsimp only at hstep
  cases hstate : worker.state with
  | ready =>
    rw [hstate] at hstep
    cases hstep
  | picking =>
    rw [hstate] at hstep
    dsimp only at hstep
    split at hstep <;> cases hstep
  | busy => exact absurd ⟨worker, hi, hstate⟩ (hidle i)
  | stopped => exact .inl rfl
  | crashed => exact .inr rfl

namespace Dispatched

variable {jobs : List (Job S)} {count : Nat} {log : List (Nat × Duty S)}

theorem stopped_of_isOver (h : Dispatched jobs count log p) (hover : p.isOver = true) :
    ∀ worker ∈ p.workers, worker.state = .stopped := by
  intro worker hworker
  exact (isOver_iff.1 hover worker hworker).resolve_right (h.upright worker hworker)

theorem crashed_eq_nil (h : Dispatched jobs count log p) : p.crashed = [] := by
  rw [crashed, List.filterMap_eq_nil_iff]
  rintro ⟨worker, i⟩ hworker
  exact if_neg (h.upright worker (List.fst_mem_of_mem_zipIdx hworker))

theorem result_of_failure (h : Dispatched jobs count log p) (hover : p.isOver = true)
    {error : Error} (hfailure : p.failure = some error) : p.result = .failed error := by
  rw [result, hover, h.crashed_eq_nil, hfailure]
  rfl

theorem result_of_none (h : Dispatched jobs count log p) (hover : p.isOver = true)
    (hcount : 0 < count) (hnone : failures log = []) :
    p.result = .finished (p.workers.map Worker.completed) ∧
      totalJobs (p.workers.map Worker.completed) = jobs.length ∧ started log = Job.sorted jobs := by
  have hfailure : p.failure = none := by rw [h.failure, hnone]; rfl
  have hstopped := h.stopped_of_isOver hover
  have hqueue : p.queue = [] := by
    obtain ⟨worker, hworker⟩ := List.exists_mem_of_length_pos (h.length ▸ hcount)
    exact h.drained hfailure worker hworker (hstopped worker hworker)
  have hstarted : started log = Job.sorted jobs := by
    rw [← h.order, hqueue, List.append_nil]
  refine ⟨?_, ?_, hstarted⟩
  · rw [result, hover, h.crashed_eq_nil, hfailure]
    rfl
  · have hcounts := h.counts
    rw [hnone, hstarted, (Job.stablySorted_sorted jobs).perm.length_eq, tally,
      List.map_congr_left fun worker hworker => show worker.completed + worker.state.load =
        worker.completed by rw [hstopped worker hworker]; rfl] at hcounts
    exact hcounts

/-- Without a failure, each job that was taken has been worked on until it was finished. -/
theorem finished_of_take (h : Dispatched jobs count log p) (hover : p.isOver = true)
    (hnone : failures log = []) {before after : List (Nat × Duty S)} {i : Nat} {job : Job S}
    (hlog : log = before ++ (i, .take job) :: after) :
    ∃ during rest, after = during ++ (i, .finish) :: rest ∧ OnlyWorked i during := by
  rcases h.attended before i job after hlog with ⟨⟨worker, hworker, hbusy⟩, -⟩ |
    ⟨during, duty, rest, rfl, honly, rfl | ⟨error, rfl⟩⟩
  · cases hbusy.symm.trans (h.stopped_of_isOver hover worker (List.mem_of_getElem? hworker))
  · exact ⟨during, rest, rfl, honly⟩
  · simp [hlog, failures, Duty.error?] at hnone

end Dispatched

/-! ## Executions -/

/-- How far the pool is from its end, not counting the work on jobs. -/
def measure (p : Pool S) : Nat :=
  3 * p.queue.length + p.tally (·.state.weight)

/-- An execution of a pool: at each time a worker takes a step, as long as there is one that can. -/
structure Execution (m : Model S) (start : Pool S) where
  pool : Nat → Pool S
  /-- Whose turn it is. -/
  turn : Nat → Option Nat
  pool_zero : pool 0 = start
  step : ∀ n i, turn n = some i → ∃ pick, (pool n).step m i pick = some (pool (n + 1))
  rest : ∀ n, turn n = none →
    pool (n + 1) = pool n ∧ ∀ i pick, (pool n).step m i pick = none

namespace Execution

variable {start : Pool S} (x : Execution m start)

def entryAt (n : Nat) : Option (Nat × Duty S) :=
  (x.turn n).bind fun i => ((x.pool n).duty? i).map (i, ·)

def log (n : Nat) : List (Nat × Duty S) :=
  (List.range n).filterMap x.entryAt

/-- No job crashes. -/
def Sound : Prop :=
  ∀ n, ∀ worker ∈ (x.pool n).workers, worker.evaluator.focus ≠ .crashed

/-- No job is worked on forever. -/
def Finite : Prop :=
  ∀ n i, (x.pool n).Busy i → ∃ k, n ≤ k ∧ ¬(x.pool k).Busy i

theorem log_succ (n : Nat) : x.log (n + 1) = x.log n ++ (x.entryAt n).toList := by
  rw [log, List.range_succ, List.filterMap_append]
  rfl

theorem cases_step (n : Nat) :
    (x.pool (n + 1) = x.pool n ∧ x.log (n + 1) = x.log n ∧
      ∀ i pick, (x.pool n).step m i pick = none) ∨
    ∃ i worker worker' duty, (x.pool n).workers[i]? = some worker ∧
      (x.pool (n + 1)).workers = (x.pool n).workers.set i worker' ∧
      (x.pool n).duty? i = some duty ∧ x.log (n + 1) = x.log n ++ [(i, duty)] ∧
      duty.Does ((x.pool n).desk worker) ((x.pool (n + 1)).desk worker') := by
  have hlog := x.log_succ n
  cases hturn : x.turn n with
  | none =>
    obtain ⟨hpool, hnone⟩ := x.rest n hturn
    rw [entryAt, hturn] at hlog
    exact .inl ⟨hpool, hlog.trans (List.append_nil _), hnone⟩
  | some i =>
    obtain ⟨pick, hstep⟩ := x.step n i hturn
    obtain ⟨worker, worker', duty, hworker, hset, hduty, hdoes, -⟩ := does_of_step hstep
    rw [entryAt, hturn, Option.bind_some, hduty] at hlog
    exact .inr ⟨i, worker, worker', duty, hworker, hset, hduty, hlog, hdoes⟩

theorem entryAt_eq_some {n i : Nat} {duty : Duty S} :
    x.entryAt n = some (i, duty) ↔ x.turn n = some i ∧ (x.pool n).duty? i = some duty := by
  rw [entryAt, Option.bind_eq_some_iff]
  constructor
  · rintro ⟨j, hturn, h⟩
    obtain ⟨duty, hduty, heq⟩ := Option.map_eq_some_iff.1 h
    cases heq
    exact ⟨hturn, hduty⟩
  · rintro ⟨hturn, hduty⟩
    exact ⟨i, hturn, by rw [hduty]; rfl⟩

theorem Sound.ne_crash {x : Execution m start} (h : x.Sound) {n i : Nat} {duty : Duty S}
    (hduty : (x.pool n).duty? i = some duty) : duty ≠ .crash := by
  rintro rfl
  obtain ⟨worker, hworker, hfocus⟩ := focus_of_crash hduty
  exact h n worker hworker hfocus

theorem dispatched {w : World S} {home : SchedulerId} {count : Nat} {jobs : List (Job S)}
    (x : Execution m (assemble w home count jobs)) (hsound : x.Sound) (n : Nat) :
    Dispatched jobs count (x.log n) (x.pool n) := by
  induction n with
  | zero =>
    rw [x.pool_zero]
    exact dispatched_assemble w home count jobs
  | succ n ih =>
    rcases x.cases_step n with ⟨hpool, hlog, -⟩ | ⟨i, worker, worker', duty, hworker, hset, hduty,
      hlog, hdoes⟩
    · rwa [hpool, hlog]
    · rw [hlog]
      exact ih.step hworker hset hdoes (hsound.ne_crash hduty)

/-! ## What becomes of a job -/

theorem acts_of_turn {n i : Nat} (h : x.turn n = some i) : ∃ worker worker' duty,
    (x.pool n).workers[i]? = some worker ∧ (x.pool (n + 1)).workers[i]? = some worker' ∧
      x.entryAt n = some (i, duty) ∧
      duty.Does ((x.pool n).desk worker) ((x.pool (n + 1)).desk worker') ∧
      duty.Drives m ((x.pool n).heldBeside i) (x.pool n).world worker.evaluator
        (x.pool (n + 1)).world worker'.evaluator := by
  obtain ⟨pick, hstep⟩ := x.step n i h
  obtain ⟨worker, worker', duty, hworker, hset, hduty, hdoes, hdrives⟩ := does_of_step hstep
  have hi : i < (x.pool n).workers.length := (List.getElem?_eq_some_iff.1 hworker).1
  refine ⟨worker, worker', duty, hworker, ?_, ?_, hdoes, hdrives⟩
  · rw [hset, List.getElem?_set_self hi]
  · exact x.entryAt_eq_some.2 ⟨h, hduty⟩

theorem worker_of_turn_ne {n i : Nat} (h : x.turn n ≠ some i) :
    (x.pool (n + 1)).workers[i]? = (x.pool n).workers[i]? := by
  cases hturn : x.turn n with
  | none => rw [(x.rest n hturn).1]
  | some j =>
    obtain ⟨pick, hstep⟩ := x.step n j hturn
    obtain ⟨worker, worker', duty, -, hset, -⟩ := does_of_step hstep
    rw [hset, List.getElem?_set_ne]
    rintro rfl
    exact h hturn

theorem rested {w : World S} {home : SchedulerId} {count : Nat} {jobs : List (Job S)}
    (x : Execution m (assemble w home count jobs)) (n : Nat) : (x.pool n).Rested := by
  induction n with
  | zero =>
    rw [x.pool_zero]
    exact fun worker hworker _ => (of_mem_hire hworker).2.2
  | succ n ih =>
    cases hturn : x.turn n with
    | none =>
      rw [(x.rest n hturn).1]
      exact ih
    | some i =>
      obtain ⟨pick, hstep⟩ := x.step n i hturn
      obtain ⟨worker, worker', duty, hworker, hset, -, hdoes, hdrives⟩ := does_of_step hstep
      exact ih.step hworker hset hdoes hdrives

theorem world_step (n : Nat) : (x.pool (n + 1)).world = (x.pool n).world ∨
    ∃ i, x.entryAt n = some (i, .work) ∧ (x.pool n).Works m i (x.pool (n + 1)) := by
  cases hturn : x.turn n with
  | none =>
    rw [(x.rest n hturn).1]
    exact .inl rfl
  | some i =>
    obtain ⟨worker, worker', duty, hworker, hworker', hentry, -, hdrives⟩ := x.acts_of_turn hturn
    by_cases hwork : duty = .work
    · subst hwork
      exact .inr ⟨i, hentry, works_of_drives hdrives hworker hworker'⟩
    · exact .inl (hdrives.world_eq hwork)

/-- Worker `i` takes the job at time `t` and carries it out: its evaluator is given the action of
the job, takes a step whenever it is the worker's turn, and has come to the result at time `k`,
when the worker counts the job or records its error. -/
structure CarriesOut (i : Nat) (job : Job S) (t k : Nat) (result : Except Error Unit) : Prop where
  lt : t < k
  taken : x.entryAt t = some (i, .take job)
  begun : ∃ e, (x.pool t).evaluator? i = some e ∧ e.writes = [] ∧
    (x.pool (t + 1)).evaluator? i = some (e.resume (.top job.action))
  worked : ∀ n, t < n → n < k → x.turn n = some i → (x.pool n).Works m i (x.pool (n + 1))
  kept : ∀ n, t < n → n < k → x.turn n ≠ some i →
    (x.pool (n + 1)).evaluator? i = (x.pool n).evaluator? i
  gave : ∃ e, (x.pool k).evaluator? i = some e ∧ e.Gave result
  ended : x.entryAt k = some (i, .ending result)

theorem works_of_busy {n i : Nat} (hturn : x.turn n = some i) (hbusy : (x.pool n).Busy i)
    (hbusy' : (x.pool (n + 1)).Busy i) : (x.pool n).Works m i (x.pool (n + 1)) := by
  obtain ⟨worker, worker', duty, hworker, hworker', -, hdoes, hdrives⟩ := x.acts_of_turn hturn
  cases hdoes.eq_work_of_busy (hbusy.state_eq hworker) (hbusy'.state_eq hworker')
  exact works_of_drives hdrives hworker hworker'

theorem ends_of_busy (hsound : x.Sound) {n i : Nat} (hbusy : (x.pool n).Busy i)
    (hidle : ¬(x.pool (n + 1)).Busy i) : ∃ e result, (x.pool n).evaluator? i = some e ∧
      e.Gave result ∧ x.entryAt n = some (i, .ending result) := by
  by_cases hturn : x.turn n = some i
  · obtain ⟨worker, worker', duty, hworker, hworker', hentry, hdoes, hdrives⟩ :=
      x.acts_of_turn hturn
    have hcrash := hsound.ne_crash (x.entryAt_eq_some.1 hentry).2
    obtain ⟨result, hgave, rfl⟩ := hdrives.ends hdoes (hbusy.state_eq hworker)
      (fun h => hidle ⟨worker', hworker', h⟩) hcrash
    exact ⟨_, result, evaluator?_eq hworker, hgave, hentry⟩
  · obtain ⟨busy, hlookup, hstate⟩ := hbusy
    exact absurd ⟨busy, (x.worker_of_turn_ne hturn).trans hlookup, hstate⟩ hidle

theorem exists_last_busy (hfinite : x.Finite) {n i : Nat} (hbusy : (x.pool n).Busy i) :
    ∃ k, n ≤ k ∧ (∀ l, n ≤ l → l ≤ k → (x.pool l).Busy i) ∧ ¬(x.pool (k + 1)).Busy i := by
  classical
  have hidle := hfinite n i hbusy
  obtain ⟨hle, hnot⟩ := Nat.find_spec hidle
  have hlt : n < Nat.find hidle := Nat.lt_of_le_of_ne hle fun heq => hnot (heq ▸ hbusy)
  obtain ⟨k, hk⟩ := Nat.exists_eq_add_of_lt hlt
  refine ⟨n + k, Nat.le_add_right n k, fun l hl hlk => ?_, hk ▸ hnot⟩
  by_contra hbusy
  exact Nat.find_min hidle (by omega) ⟨hl, hbusy⟩

theorem exists_carriesOut {w : World S} {home : SchedulerId} {count : Nat} {jobs : List (Job S)}
    (x : Execution m (assemble w home count jobs)) (hsound : x.Sound) (hfinite : x.Finite)
    {t i : Nat} {job : Job S} (h : x.entryAt t = some (i, .take job)) :
    ∃ k result, x.CarriesOut i job t k result := by
  have hturn := (x.entryAt_eq_some.1 h).1
  obtain ⟨worker, worker', duty, hworker, hworker', hentry, hdoes, hdrives⟩ := x.acts_of_turn hturn
  cases hentry.symm.trans h
  have hbusy : (x.pool (t + 1)).Busy i := ⟨worker', hworker', (hdoes.state_of_take rfl).2⟩
  -- The worker is busy up to the time `k`, and no longer.
  obtain ⟨k, hk, hduring, hidle⟩ := x.exists_last_busy hfinite hbusy
  obtain ⟨e, result, he, hgave, hended⟩ := x.ends_of_busy hsound (hduring k hk k.le_refl) hidle
  refine ⟨k, result, hk, h, ?_, fun n hn hnk hturn => ?_, fun n hn hnk hturn => ?_, ⟨e, he, hgave⟩,
    hended⟩
  · refine ⟨worker.evaluator, evaluator?_eq hworker, ?_, ?_⟩
    · exact x.rested t worker (List.mem_of_getElem? hworker) (.inr (hdoes.state_of_take rfl).1)
    · rw [← hdrives.evaluator_of_take rfl]
      exact evaluator?_eq hworker'
  · exact x.works_of_busy hturn (hduring n hn hnk.le) (hduring (n + 1) (by omega) hnk)
  · rw [evaluator?, evaluator?, x.worker_of_turn_ne hturn]

/-! ## Every execution comes to an end -/

/-- Work on a job changes nothing for the others, and everything else brings the end closer. -/
theorem measure_step (n : Nat) : (x.pool (n + 1)).measure < (x.pool n).measure ∨
    ((x.pool (n + 1)).measure = (x.pool n).measure ∧
      ∀ i, (x.pool (n + 1)).Busy i ↔ (x.pool n).Busy i) := by
  rcases x.cases_step n with ⟨hpool, -⟩ | ⟨i, worker, worker', duty, hworker, hset, -, -, hdoes⟩
  · rw [hpool]
    exact .inr ⟨rfl, fun _ => Iff.rfl⟩
  · have htally := tally_set hworker hset (·.state.weight)
    by_cases hwork : duty = .work
    · obtain ⟨hdesk, hbusy⟩ := hdoes.eq_of_work hwork
      simp only [desk, Desk.mk.injEq] at hdesk hbusy
      obtain ⟨hqueue, -, hstate, -⟩ := hdesk
      rw [hstate] at htally
      refine .inr ⟨?_, fun j => ?_⟩
      · rw [measure, measure, hqueue, Nat.add_right_cancel htally]
      · rw [busy_set_iff hworker hset, hstate]
        split
        · next hj =>
          subst hj
          exact ⟨fun h => ⟨worker, hworker, h⟩, fun _ => hbusy⟩
        · rfl
    · have hlt := hdoes.weight_lt hwork
      simp only [desk] at hlt
      refine .inl ?_
      rw [measure, measure]
      omega

theorem exists_isOver (hfinite : x.Finite) : ∃ n, (x.pool n).isOver = true := by
  -- At the time when the measure is least, only jobs may still be worked on.
  let n := Function.argmin fun n => (x.pool n).measure
  have hmin : ∀ k, (x.pool n).measure ≤ (x.pool k).measure := fun k =>
    Function.argmin_le (fun n => (x.pool n).measure) k
  have hlater : ∀ k, (x.pool (n + k)).measure = (x.pool n).measure ∧
      ∀ i, (x.pool (n + k)).Busy i ↔ (x.pool n).Busy i := by
    intro k
    induction k with
    | zero => exact ⟨rfl, fun _ => Iff.rfl⟩
    | succ k ih =>
      rcases x.measure_step (n + k) with hlt | ⟨heq, hbusy⟩
      · exact absurd (ih.1 ▸ hlt) (Nat.not_lt.2 (hmin _))
      · exact ⟨heq.trans ih.1, fun i => (hbusy i).trans (ih.2 i)⟩
  have hidle : ∀ i, ¬(x.pool n).Busy i := by
    intro i hbusy
    obtain ⟨k, hk, hnot⟩ := hfinite n i hbusy
    obtain ⟨k, rfl⟩ := Nat.exists_eq_add_of_le hk
    exact hnot (((hlater k).2 i).2 hbusy)
  refine ⟨n, ?_⟩
  rcases x.cases_step n with ⟨-, -, hnone⟩ | ⟨i, worker, worker', duty, hworker, hset, -, -, hdoes⟩
  · exact isOver_of_step_eq_none hnone hidle
  · have hwork : duty ≠ .work := fun h => hidle i ⟨worker, hworker, (hdoes.eq_of_work h).2⟩
    have hlt := hdoes.weight_lt hwork
    have htally := tally_set hworker hset (·.state.weight)
    have hle := (hlater 1).1
    simp only [desk] at hlt
    simp only [measure] at hle
    omega

theorem mem_log {n : Nat} {entry : Nat × Duty S} :
    entry ∈ x.log n ↔ ∃ k < n, x.entryAt k = some entry := by
  simp [log]

theorem entryAt_of_started {n : Nat} {job : Job S} (h : job ∈ started (x.log n)) :
    ∃ i t, x.entryAt t = some (i, .take job) := by
  obtain ⟨⟨i, duty⟩, hmem, hjob⟩ := List.mem_filterMap.1 h
  obtain ⟨t, -, ht⟩ := x.mem_log.1 hmem
  cases duty with
  | take => cases hjob; exact ⟨i, t, ht⟩
  | _ => cases hjob

theorem eq_of_isOver {n : Nat} (hover : (x.pool n).isOver = true) {k : Nat} (hk : n ≤ k) :
    x.pool k = x.pool n ∧ x.log k = x.log n := by
  induction k, hk using Nat.le_induction with
  | base => exact ⟨rfl, rfl⟩
  | succ k _ ih =>
    rcases x.cases_step k with ⟨hpool, hlog, -⟩ | ⟨i, worker, worker', duty, hworker, -, -, -, hdoes⟩
    · exact ⟨hpool.trans ih.1, hlog.trans ih.2⟩
    · rw [ih.1] at hworker
      obtain ⟨hstopped, hcrashed⟩ := hdoes.not_over
      rcases isOver_iff.1 hover worker (List.mem_of_getElem? hworker) with hstate | hstate
      · exact absurd hstate hstopped
      · exact absurd hstate hcrashed

theorem lt_of_entryAt {n : Nat} (hover : (x.pool n).isOver = true) {k : Nat}
    {entry : Nat × Duty S} (h : x.entryAt k = some entry) : k < n := by
  by_contra hle
  have hlog := (x.eq_of_isOver hover (Nat.le_succ_of_le (Nat.not_lt.1 hle))).2
  rw [← (x.eq_of_isOver hover (Nat.not_lt.1 hle)).2, log_succ, h, Option.toList_some] at hlog
  simp at hlog

/-- **Dispatch of jobs.** Whichever way the workers take turns, jobs are taken in the order of
their phases, each of them once at most, and the pool comes to an end. A job that is taken is
carried out by its worker, and the world changes only when a job is worked on. If no job fails, all
have been carried out, and the workers have counted them. Otherwise the result is the first failure
that was recorded, after which each of the other workers has taken one job at most. -/
theorem dispatch (w : World S) (home : SchedulerId) (workers : Nat) (jobs : List (Job S))
    (x : Execution m (assemble w home (max workers 1) jobs)) (hsound : x.Sound)
    (hfinite : x.Finite) :
    (∀ n, started (x.log n) ++ (x.pool n).queue = Job.sorted jobs) ∧
    Job.StablySorted jobs (Job.sorted jobs) ∧
    (∀ t i job, x.entryAt t = some (i, .take job) → ∃ k result, x.CarriesOut i job t k result) ∧
    (∀ n, (x.pool (n + 1)).world = (x.pool n).world ∨
      ∃ i, x.entryAt n = some (i, .work) ∧ (x.pool n).Works m i (x.pool (n + 1))) ∧
    ∃ n, (x.pool n).isOver = true ∧ (∀ k, n ≤ k → x.pool k = x.pool n ∧ x.log k = x.log n) ∧
      (failures (x.log n) = [] → ∃ completed, (x.pool n).result = .finished completed ∧
        completed.length = max workers 1 ∧ totalJobs completed = jobs.length ∧
        started (x.log n) = Job.sorted jobs ∧
        (∀ job ∈ jobs, ∃ i t k, k < n ∧ x.CarriesOut i job t k (.ok ())) ∧
        ∀ before i job after, x.log n = before ++ (i, .take job) :: after →
          ∃ during rest, after = during ++ (i, .finish) :: rest ∧ OnlyWorked i during) ∧
      (∀ error, (failures (x.log n)).head? = some error → (x.pool n).result = .failed error) ∧
      ∀ before i error after, x.log n = before ++ (i, .fail error) :: after →
        failures before = [] → (started after).length ≤ max workers 1 - 1 := by
  obtain ⟨n, hover⟩ := x.exists_isOver hfinite
  have h := x.dispatched hsound n
  refine ⟨fun k => (x.dispatched hsound k).order, Job.stablySorted_sorted jobs,
    fun t i job => x.exists_carriesOut hsound hfinite, x.world_step, n, hover,
    fun k hk => x.eq_of_isOver hover hk, ?_, ?_, ?_⟩
  · intro hnone
    obtain ⟨hresult, htotal, hstarted⟩ := h.result_of_none hover (by omega) hnone
    refine ⟨_, hresult, ?_, htotal, hstarted, fun job hjob => ?_, fun before i job after hlog =>
      h.finished_of_take hover hnone hlog⟩
    · rw [List.length_map, h.length]
    · rw [← (Job.stablySorted_sorted jobs).perm.mem_iff, ← hstarted] at hjob
      obtain ⟨i, t, ht⟩ := x.entryAt_of_started hjob
      obtain ⟨k, result, hcarries⟩ := x.exists_carriesOut hsound hfinite ht
      have hk := x.lt_of_entryAt hover hcarries.ended
      cases result with
      | ok => exact ⟨i, t, k, hk, hcarries⟩
      | error error =>
        have hfail : error ∈ failures (x.log n) :=
          List.mem_filterMap.2 ⟨_, x.mem_log.2 ⟨k, hk, hcarries.ended⟩, rfl⟩
        rw [hnone] at hfail
        cases hfail
  · intro error hhead
    exact h.result_of_failure hover (h.failure.trans hhead)
  · intro before i error after hlog hbefore
    have hlate := h.late before i error after hlog hbefore
    omega

/-! ## Executions in a given order -/

theorem finite_of_isOver {n : Nat} (hover : (x.pool n).isOver = true) : x.Finite := by
  intro k i _
  refine ⟨max n k, Nat.le_max_right n k, ?_⟩
  rw [(x.eq_of_isOver hover (Nat.le_max_left n k)).1]
  rintro ⟨worker, hworker, hbusy⟩
  rcases isOver_iff.1 hover worker (List.mem_of_getElem? hworker) with hstate | hstate
  · cases hbusy.symm.trans hstate
  · cases hbusy.symm.trans hstate

end Execution

end Pool

namespace Evaluator

variable {α : Type} {m : Model S} {w : World S} {e : Evaluator S α}

theorem passBarrier_eq_none {u : WorkUnit S.Rule} {phase : Phase}
    (h : e.passBarrier 0 w u phase = none) (pick : Nat) : e.passBarrier pick w u phase = none := by
  unfold passBarrier at h ⊢
  dsimp only at h ⊢
  split at h
  · cases h
  · split at h
    · cases h
    · split at h
      · cases h
      · next hnone =>
        rw [List.getElem?_eq_none_iff, Nat.zero_mod, Nat.le_zero, List.length_eq_zero_iff] at hnone
        rw [hnone]
        rfl

/-- Whether there is a step to take does not depend on the choice between earlier units. -/
theorem step_eq_none_of_zero (h : e.step m 0 w = none) (pick : Nat) : e.step m pick w = none := by
  obtain ⟨id, home, worker, frames, levels, writes, focus⟩ := e
  cases writes with
  | cons next rest => cases h
  | nil =>
    cases focus with
    | barrier u phase => exact passBarrier_eq_none h pick
    | act code => cases code with | body a | top a => cases a <;> exact h
    | _ => exact h

end Evaluator

namespace Pool

variable {m : Model S} {p p' : Pool S} {i : Nat}

theorem step_eq_none_of_zero (h : p.step m i 0 = none) (pick : Nat) : p.step m i pick = none := by
  cases hworker : p.workers[i]? with
  | none => rw [step, hworker]
  | some worker =>
    obtain ⟨evaluator, state, completed⟩ := worker
    rw [step, hworker] at h ⊢
    cases state with
    | busy =>
      dsimp only at h ⊢
      split at h
      · cases h
      · cases h
      · cases h
      · rw [Evaluator.step_eq_none_of_zero (Option.map_eq_none_iff.1 h) pick]
        rfl
    | _ => exact h

theorem step_of_turn {order : List Nat} (h : p.turn m order = some (p', i)) :
    p.step m i 0 = some p' := by
  induction order with
  | nil => cases h
  | cons k rest ih =>
    rw [turn] at h
    split at h
    · next hstep =>
      cases h
      exact hstep
    · exact ih h

theorem step_eq_none_of_turn {order : List Nat} (h : p.turn m order = none)
    (hall : ∀ i < p.workers.length, i ∈ order) (i pick : Nat) : p.step m i pick = none := by
  have hmem : ∀ i ∈ order, p.step m i 0 = none := by
    clear hall
    induction order with
    | nil => exact nofun
    | cons k rest ih =>
      rw [turn] at h
      split at h
      · cases h
      · next hstep => exact List.forall_mem_cons.2 ⟨hstep, ih h⟩
  by_cases hi : i < p.workers.length
  · exact step_eq_none_of_zero (hmem i (hall i hi)) pick
  · rw [step, List.getElem?_eq_none (Nat.not_lt.1 hi)]

theorem mem_rotateLeft {l : List Nat} {k : Nat} : i ∈ l.rotateLeft k ↔ i ∈ l := by
  unfold List.rotateLeft
  dsimp only
  split
  · rfl
  · rw [List.mem_append, or_comm, ← List.mem_append, List.take_append_drop]

/-- At each time, the first worker that can take a step takes it. The order may depend on the
time, the pool, and the worker that took a step before. -/
def visit (m : Model S) (order : Nat → Pool S → Nat → List Nat) (start : Pool S) : Nat → Pool S × Nat
  | 0 => (start, 0)
  | n + 1 =>
    let x := visit m order start n
    (x.1.turn m (order n x.1 x.2)).getD x

namespace Execution

def ofOrder (m : Model S) (start : Pool S) (order : Nat → Pool S → Nat → List Nat)
    (hall : ∀ n p k, ∀ i < p.workers.length, i ∈ order n p k) : Execution m start where
  pool n := (visit m order start n).1
  turn n := ((visit m order start n).1.turn m
    (order n (visit m order start n).1 (visit m order start n).2)).map Prod.snd
  pool_zero := rfl
  step n i h := by
    obtain ⟨⟨p, i⟩, hturn, rfl⟩ := Option.map_eq_some_iff.1 h
    refine ⟨0, ?_⟩
    rw [visit, hturn]
    exact step_of_turn hturn
  rest n h := by
    have hturn := Option.map_eq_none_iff.1 h
    refine ⟨by rw [visit, hturn]; rfl, step_eq_none_of_turn hturn (hall _ _ _)⟩

def ofRun (m : Model S) (start : Pool S) : Execution m start :=
  ofOrder m start (fun _ p k => (List.range p.workers.length).rotateLeft k) fun _ _ _ _ hi =>
    mem_rotateLeft.2 (List.mem_range.2 hi)

end Execution

theorem run_eq_self {current : Nat}
    (h : p.turn m ((List.range p.workers.length).rotateLeft current) = none) (limit : Nat) :
    run m limit current p = p := by
  cases limit with
  | zero => rfl
  | succ limit => rw [run, h]

theorem pool_ofRun (m : Model S) (start : Pool S) (n : Nat) :
    (Execution.ofRun m start).pool n = run m n 0 start := by
  let order : Nat → Pool S → Nat → List Nat :=
    fun _ p k => (List.range p.workers.length).rotateLeft k
  -- What is left to be run after the first steps.
  have hsplit : ∀ n rest, run m (n + rest) 0 start =
      run m rest (visit m order start n).2 (visit m order start n).1 := by
    intro n
    induction n with
    | zero =>
      intro rest
      rw [Nat.zero_add]
      rfl
    | succ n ih =>
      intro rest
      rw [Nat.add_right_comm, Nat.add_assoc, ih (rest + 1), run, visit]
      cases hturn : (visit m order start n).1.turn m (order n (visit m order start n).1
          (visit m order start n).2) with
      | none => exact (run_eq_self hturn rest).symm
      | some x => rfl
  exact (hsplit n 0).symm

theorem result_runPool (m : Model S) (limit : Nat) (w : World S) (home : SchedulerId)
    (workers : Nat) (jobs : List (Job S)) : (w.runPool m limit home workers jobs).2 =
      ((Execution.ofRun m (assemble w home (max workers 1) jobs)).pool limit).result := by
  rw [pool_ofRun]
  rfl

/-! ## A late start -/

private def clerk : Model sheet :=
  .ofBodies fun r => .ask (.fill (r : Nat) (r + 1 : Nat)) fun _ => .pure (.ok ())

private def bureau : World sheet :=
  { env := (), schedulers := #[{}] }

private def query (label : String) (phase : Option Phase) (c : Nat) : Job sheet :=
  ⟨label, phase, .ask (.probe c) fun
    | .ok _ => .pure (.ok ())
    | .error error => .pure (.error error)⟩

private def filing : Job sheet :=
  ⟨"filing", none, .ask (.register "tile" none (3 : Nat)) fun u =>
    .ask (.attempt u) fun _ => .pure (.ok ())⟩

private def errands : List (Job sheet) :=
  [query "last" (some 1) 3, query "orphan" none 5, filing]

/-- Both workers look for a failure before the first job fails. -/
private def rush : Execution clerk (assemble bureau 0 (max 2 1) errands) :=
  .ofOrder clerk _ (fun n p _ => (if n = 1 then [1] else []) ++ List.range p.workers.length)
    fun _ _ _ _ hi => List.mem_append_right _ (List.mem_range.2 hi)

private theorem sorted_errands : Job.sorted errands =
    [query "orphan" none 5, filing, query "last" (some 1) 3] := by
  simp [Job.sorted, errands, List.mergeSort, Job.rank, query, filing,
    List.MergeSort.Internal.splitInTwo]

private theorem isOver_rush : (rush.pool 18).isOver = true := by
  change (visit clerk _ (assemble bureau 0 2 errands) 18).1.isOver = true
  rw [assemble, sorted_errands]
  decide +kernel

private theorem sound_rush : rush.Sound := by
  let upright (worker : Worker sheet) : Bool :=
    match worker.evaluator.focus with
    | .crashed => false
    | _ => true
  have hfirst : ∀ n < 19, (rush.pool n).workers.all upright = true := by
    change ∀ n < 19, (visit clerk _ (assemble bureau 0 2 errands) n).1.workers.all upright = true
    rw [assemble, sorted_errands]
    decide +kernel
  have hall : ∀ n, (rush.pool n).workers.all upright = true := by
    intro n
    by_cases hn : n < 19
    · exact hfirst n hn
    · rw [(rush.eq_of_isOver isOver_rush (by omega : 18 ≤ n)).1]
      exact hfirst 18 (by decide)
  intro n worker hworker hcrashed
  have hup := List.all_eq_true.1 (hall n) worker hworker
  simp only [upright, hcrashed] at hup
  cases hup

private theorem log_rush : (failures (rush.log 18)).head? = some (.missingResolver "5") ∧
    (started (rush.log 18)).map Job.label = ["orphan", "filing"] := by
  simp only [Execution.log, rush, Execution.ofOrder, assemble, sorted_errands]
  decide +kernel

private theorem entryAt_rush : rush.entryAt 2 = some (0, .take (query "orphan" none 5)) ∧
    rush.entryAt 6 = some (1, .take filing) := by
  simp only [Execution.entryAt, rush, Execution.ofOrder, assemble, sorted_errands]
  exact ⟨rfl, rfl⟩

private theorem cell_rush : ((rush.pool 18).world.cell 3).value = .forced (4 : Nat) := by
  simp only [rush, Execution.ofOrder, assemble, sorted_errands]
  rfl

private def expected : Nat × Duty sheet → Bool
  | (0, .finish) | (1, .fail _) => false
  | (0, .fail error) => error = .missingResolver "5"
  | _ => true

private theorem ending_rush : ∀ k < 18, (rush.entryAt k).all expected = true := by
  simp only [Execution.entryAt, rush, Execution.ofOrder, assemble, sorted_errands]
  decide +kernel

private theorem result_rush {i t k : Nat} {job : Job sheet} {result : Except Error Unit}
    (h : rush.CarriesOut i job t k result) : expected (i, .ending result) = true := by
  have hk := ending_rush k (rush.lt_of_entryAt isOver_rush h.ended)
  rw [h.ended] at hk
  exact hk

/-- The first job reads a cell that nothing resolves. The other worker takes one more job after
the failure, and the unit that this one runs fills its cell. -/
theorem dispatch_rush : ∃ x : Execution clerk (assemble bureau 0 (max 2 1) errands),
    x.Sound ∧ x.Finite ∧
    (∃ k, x.CarriesOut 0 (query "orphan" none 5) 2 k (.error (.missingResolver "5"))) ∧
    (∃ k, x.CarriesOut 1 filing 6 k (.ok ())) ∧
    ∃ n, (x.pool n).isOver = true ∧ (x.pool n).result = .failed (.missingResolver "5") ∧
      (started (x.log n)).map Job.label = ["orphan", "filing"] ∧
      ((x.pool n).world.cell 3).value = .forced (4 : Nat) := by
  have hfinite := rush.finite_of_isOver isOver_rush
  obtain ⟨-, -, hcarried, -, n, hover, hlater, -, hfailed, -⟩ :=
    Execution.dispatch bureau 0 2 errands rush sound_rush hfinite
  have hpool : rush.pool n = rush.pool 18 ∧ rush.log n = rush.log 18 := by
    obtain ⟨hpool, hlog⟩ := rush.eq_of_isOver hover (Nat.le_max_left n 18)
    obtain ⟨hpool', hlog'⟩ := rush.eq_of_isOver isOver_rush (Nat.le_max_right n 18)
    exact ⟨hpool.symm.trans hpool', hlog.symm.trans hlog'⟩
  rw [hpool.2] at hfailed
  refine ⟨rush, sound_rush, hfinite, ?_, ?_, n, hover, hfailed _ log_rush.1, ?_, ?_⟩
  · obtain ⟨k, result, h⟩ := hcarried _ _ _ entryAt_rush.1
    have hresult := result_rush h
    cases result with
    | ok => cases hresult
    | error error =>
      cases of_decide_eq_true hresult
      exact ⟨k, h⟩
  · obtain ⟨k, result, h⟩ := hcarried _ _ _ entryAt_rush.2
    have hresult := result_rush h
    cases result with
    | ok => exact ⟨k, h⟩
    | error => cases hresult
  · rw [hpool.2]
    exact log_rush.2
  · rw [hpool.1]
    exact cell_rush

end Pool

end Attribution.Engine
