import Mathlib.Data.Set.Finite.Basic
import Mathlib.Dynamics.PeriodicPts.Defs
import Attribution.Proofs.Engine.Barrier
import Attribution.Proofs.Engine.Chase
import Attribution.Proofs.Engine.Waiting
/-!
# Circular waits

An evaluator that asks for a unit running elsewhere follows the list of waits and, if that
leads back to a unit of its own, takes the answer that a cycle gives. So evaluators that
wait for each other's units never all stand still (`exists_outside`). An evaluator that
stops at the barrier is not listed and follows nothing: a deadlock has to pass through one
(`deadlock_at_barrier`), and there are such deadlocks (`deadlock_at_barrier_crossed`).
-/

namespace Attribution.Engine

variable {S : Schema} {α : Type}

/-! ## Chains of waits -/

namespace Scheduler

variable {ρ : Type} {s : Scheduler ρ} {self : EvaluatorId}

/-- Who runs the unit that an evaluator waits for. -/
def heir (s : Scheduler ρ) (j : EvaluatorId) : EvaluatorId :=
  ((s.awaited? j).bind s.owner?).getD j

/-- The evaluators of `D` other than `self` wait for units that evaluators of `D` run. -/
def Chained (s : Scheduler ρ) (self : EvaluatorId) (D : EvaluatorId → Prop)
    (f : EvaluatorId → EvaluatorId) : Prop :=
  ∀ j, D j → D (f j) ∧ (j ≠ self → ∃ id, s.awaited? j = some id ∧ s.owner? id = some (f j))

variable {D : EvaluatorId → Prop} {f : EvaluatorId → EvaluatorId}

theorem exists_walk_of_iterate (hf : s.Chained self D f) (n : Nat) : ∀ (j : EvaluatorId)
    (id : UnitId), D j → s.owner? id = some j → f^[n] j = self →
    ∃ k r, s.walk k id = some r ∧ s.owner? r = some self := by
  induction n with
  | zero =>
    intro j id _ howner hback
    obtain rfl : j = self := hback
    exact ⟨0, id, rfl, howner⟩
  | succ n ih =>
    intro j id hj howner hback
    by_cases hself : j = self
    · exact ⟨0, id, rfl, by rw [howner, hself]⟩
    · obtain ⟨hnext, hwait⟩ := hf j hj
      obtain ⟨next, hawaited, howned⟩ := hwait hself
      rw [Function.iterate_succ_apply] at hback
      obtain ⟨k, r, hwalk, hr⟩ := ih (f j) next hnext howned hback
      refine ⟨k + 1, r, ?_, hr⟩
      rw [walk, next?, howner, Option.bind_some, hawaited]
      exact hwalk

theorem waitsOn?_of_periodic (hf : s.Chained self D f) (hself : D self)
    (hperiod : 0 < Function.minimalPeriod f self) {id : UnitId}
    (howner : s.owner? id = some (f self)) :
    ∃ r, s.waitsOn? self id = some r ∧ s.owner? r = some self := by
  obtain ⟨n, hn⟩ := Nat.exists_eq_succ_of_ne_zero (Nat.ne_of_gt hperiod)
  have hback : f^[n] (f self) = self := by
    rw [← Function.iterate_succ_apply, ← hn]
    exact Function.iterate_minimalPeriod
  obtain ⟨k, r, hwalk, hr⟩ := exists_walk_of_iterate hf n _ id (hf self hself).1 howner hback
  obtain ⟨k, r, h⟩ := exists_meets hwalk hr
  exact ⟨r, waitsOn?_eq_some_iff.2 ⟨k, h⟩, h.owned⟩

end Scheduler

/-- A walk that stays in a finite set comes to a point that it returns to. -/
theorem exists_periodic {f : EvaluatorId → EvaluatorId} (ids : List EvaluatorId)
    (hf : ∀ j ∈ ids, f j ∈ ids) (h : ids ≠ []) :
    ∃ j ∈ ids, 0 < Function.minimalPeriod f j := by
  obtain ⟨start, hstart⟩ := List.exists_mem_of_ne_nil ids h
  have hmem : ∀ n, f^[n] start ∈ ids := by
    intro n
    induction n with
    | zero => exact hstart
    | succ n ih =>
      rw [Function.iterate_succ_apply']
      exact hf _ ih
  obtain ⟨i, -, k, -, hne, heq⟩ := Set.infinite_univ.exists_ne_map_eq_of_mapsTo
    (f := fun n => f^[n] start) (t := {j | j ∈ ids}) (fun n _ => hmem n) ids.finite_toSet
  have hperiodic {i k : Nat} (hlt : i < k) (heq : f^[i] start = f^[k] start) :
      ∃ j ∈ ids, 0 < Function.minimalPeriod f j := by
    refine ⟨f^[i] start, hmem i, Function.IsPeriodicPt.minimalPeriod_pos (n := k - i) (by omega) ?_⟩
    rw [Function.IsPeriodicPt, Function.IsFixedPt, ← Function.iterate_add_apply,
      Nat.sub_add_cancel (Nat.le_of_lt hlt)]
    exact heq.symm
  rcases Nat.lt_or_gt_of_ne hne with hlt | hlt
  · exact hperiodic hlt heq
  · exact hperiodic hlt heq.symm

/-! ## Evaluators that stand still -/

namespace Evaluator

variable {m : Model S} {w : World S} {e : Evaluator S α} {s : Scheduler S.Rule}

/-- The evaluator waits, for a unit that runs elsewhere or at the barrier, and cannot go
on. -/
structure Blocked (m : Model S) (w : World S) (e : Evaluator S α) : Prop where
  waits : (∃ u, e.focus = .blocked u) ∨ ∃ u phase, e.focus = .barrier u phase
  stuck : ∀ pick, e.step m pick w = none

theorem Blocked.writes (h : e.Blocked m w) : e.writes = [] := by
  cases hw : e.writes with
  | nil => rfl
  | cons next rest =>
    have hstuck := h.stuck 0
    rw [step, hw] at hstuck
    cases hstuck

theorem of_busy {u : WorkUnit S.Rule} (h : e.admission s u = .busy) :
    (∃ status, s.status? u.id = some status ∧ status.isRunning = true) ∧
      ∀ r, s.waitsOn? e.id u.id = some r → Frame.indexOf? r e.frames = none := by
  unfold admission at h
  split at h
  · cases h
  · split at h
    · cases h
    · cases h
    · cases h
    · repeat' split at h
      all_goals cases h
    · rename_i status hs hfail hnew hsuccess
      refine ⟨⟨status, hsuccess, ?_⟩, fun r hr => ?_⟩
      · cases status with
        | running | runningRecursive | runningWillFail => rfl
        | new => exact absurd rfl hnew
        | success => exact absurd rfl hs
        | fail => exact absurd rfl hfail
      · split at h
        · cases h
        · rename_i hbind
          rw [hr] at hbind
          exact hbind

theorem Blocked.busy (h : e.Blocked m w) {u : WorkUnit S.Rule} (hf : e.focus = .blocked u) :
    e.admission ((w.scheduler e.home).stopWaiting e.id) u = .busy := by
  have hstuck := h.stuck 0
  rw [step, h.writes, hf] at hstuck
  dsimp only at hstuck
  split at hstuck
  · assumption
  · cases hstuck

/-- What holds up an evaluator at the barrier is neither its own nor new. -/
theorem Blocked.earlier (h : e.Blocked m w) {u : WorkUnit S.Rule} {phase : Phase}
    (hf : e.focus = .barrier u phase) : ∃ q b, (q, b) ∈ (w.scheduler e.home).pending ∧ q < phase ∧
      (∀ f ∈ e.frames, f.unit.id ≠ b.id) ∧ (w.scheduler e.home).status? b.id ≠ some .new := by
  have hstuck := h.stuck 0
  rw [step, h.writes, hf] at hstuck
  dsimp only [passBarrier] at hstuck
  cases hunits : (w.scheduler e.home).earlierUnits phase with
  | nil =>
    rw [hunits] at hstuck
    cases hstuck
  | cons x rest =>
    obtain ⟨q, b⟩ := x
    rw [hunits] at hstuck
    have hmem : (q, b) ∈ (q, b) :: rest := List.mem_cons_self
    obtain ⟨hpending, hlt⟩ := (w.scheduler e.home).mem_earlierUnits.1 (hunits ▸ hmem)
    dsimp only at hstuck
    split at hstuck
    · cases hstuck
    · rename_i hfind
      split at hstuck
      · cases hstuck
      · rename_i hidle
        refine ⟨q, b, hpending, hlt, ?_, fun hnew => ?_⟩
        · have hown := List.find?_eq_none.1 hfind _ hmem
          exact Frame.indexOf?_eq_none_iff.1 (Option.not_isSome_iff_eq_none.1 hown)
        · -- A new unit among them would be helped.
          rw [List.getElem?_eq_none_iff] at hidle
          have hin : (q, b) ∈ ((q, b) :: rest).filter fun x =>
              (w.scheduler e.home).status? x.2.id = some .new :=
            List.mem_filter.2 ⟨hmem, by simpa using hnew⟩
          have hpos := List.length_pos_of_mem hin
          have hmod := Nat.mod_lt 0 hpos
          omega

end Evaluator

namespace Team

variable {m : Model S} {home : SchedulerId} {issued : List (WorkUnit S.Rule)} {x : Team S α}

/-- Somebody has not finished, and everybody who has not is blocked. -/
structure Deadlock (m : Model S) (x : Team S α) : Prop where
  unfinished : ∃ e ∈ x.members, ∀ a, ¬e.Gave a
  blocked : ∀ e ∈ x.members, (∃ a, e.Gave a) ∨ e.Blocked m x.world

theorem Orderly.exists_owner (h : Orderly home x issued) {id : UnitId} {status : Status}
    (hs : (x.world.scheduler home).status? id = some status) (hr : status.isRunning = true) :
    ∃ d ∈ x.members, (∃ f ∈ d.frames, f.unit.id = id) ∧
      (x.world.scheduler home).owner? id = some d.id := by
  obtain ⟨d, hd, f, hf, rfl⟩ := h.running id status hs hr
  exact ⟨d, hd, ⟨f, hf, rfl⟩, (h.held d hd f hf).owner⟩

theorem Orderly.exists_awaited (h : Orderly home x issued) {e : Evaluator S α}
    (he : e ∈ x.members) (hb : e.Blocked m x.world) {u : WorkUnit S.Rule}
    (hf : e.focus = .blocked u) : ∃ d ∈ x.members, (∃ f ∈ d.frames, f.unit.id = u.id) ∧
      (x.world.scheduler home).owner? u.id = some d.id := by
  obtain ⟨⟨status, hs, hr⟩, -⟩ := Evaluator.of_busy (hb.busy hf)
  rw [h.at_home e he] at hs
  exact h.exists_owner hs hr

/-- **Waits for units alone.** Of any number of evaluators that wait for units running
elsewhere, one waits for an evaluator that is none of them. -/
theorem Reach.exists_outside (h : Reach m home x issued) {C : List (Evaluator S α)} (hC : C ≠ [])
    (hmem : ∀ e ∈ C, e ∈ x.members) (hblocked : ∀ e ∈ C, e.Blocked m x.world)
    (hfocus : ∀ e ∈ C, ∃ u, e.focus = .blocked u) :
    ∃ e ∈ C, ∃ u, e.focus = .blocked u ∧ ∃ d ∈ x.members, d ∉ C ∧ ∃ f ∈ d.frames,
      f.unit.id = u.id := by
  have horder := h.orderly
  by_contra hclosed
  -- Otherwise each waits for another of them, and some come round to themselves.
  have hheir : ∀ e ∈ C, ∃ u, e.focus = .blocked u ∧
      (x.world.scheduler home).awaited? e.id = some u.id ∧
      (x.world.scheduler home).owner? u.id = some ((x.world.scheduler home).heir e.id) ∧
      (x.world.scheduler home).heir e.id ∈ C.map Evaluator.id := by
    intro e he
    obtain ⟨u, hu⟩ := hfocus e he
    obtain ⟨d, hd, hon, howner⟩ := horder.exists_awaited (hmem e he) (hblocked e he) hu
    have hin : d ∈ C := by
      by_contra hout
      exact hclosed ⟨e, he, u, hu, d, hd, hout, hon⟩
    have hawaited := (h.composed e (hmem e he)).focus
    rw [hu] at hawaited
    have hnext : (x.world.scheduler home).heir e.id = d.id := by
      rw [Scheduler.heir, show (x.world.scheduler home).awaited? e.id = some u.id from hawaited,
        Option.bind_some, howner]
      rfl
    exact ⟨u, hu, hawaited, by rw [hnext]; exact howner,
      by rw [hnext]; exact List.mem_map_of_mem hin⟩
  obtain ⟨self, hself, hperiod⟩ := exists_periodic (f := (x.world.scheduler home).heir)
    (C.map Evaluator.id) (fun j hj => by
      obtain ⟨e, he, rfl⟩ := List.mem_map.1 hj
      obtain ⟨-, -, -, -, hin⟩ := hheir e he
      exact hin) (by simpa using hC)
  obtain ⟨e, he, rfl⟩ := List.mem_map.1 hself
  have hchain : ((x.world.scheduler home).stopWaiting e.id).Chained e.id
      (· ∈ C.map Evaluator.id) (x.world.scheduler home).heir := by
    intro j hj
    obtain ⟨d, hd, rfl⟩ := List.mem_map.1 hj
    obtain ⟨u, -, hawaited, howner, hin⟩ := hheir d hd
    refine ⟨hin, fun hne => ⟨u.id, ?_, howner⟩⟩
    rw [Scheduler.awaited?_stopWaiting _ hne]
    exact hawaited
  obtain ⟨u, hu, -, howner, -⟩ := hheir e he
  obtain ⟨r, hr, hown⟩ := Scheduler.waitsOn?_of_periodic hchain hself hperiod howner
  obtain ⟨-, hnone⟩ := Evaluator.of_busy ((hblocked e he).busy hu)
  rw [horder.at_home e (hmem e he)] at hnone
  obtain ⟨d, hd, f, hf, rfl⟩ := horder.owned r e.id hown
  have hid : d.id = e.id :=
    Option.some.inj ((horder.held d hd f hf).owner.symm.trans hown)
  obtain rfl := List.inj_on_of_nodup_map horder.ids hd (hmem e he) hid
  exact Frame.indexOf?_eq_none_iff.1 (hnone _ hr) f hf rfl

theorem Reach.blocked_of_frame (h : Reach m home x issued) (hd : Deadlock m x)
    {d : Evaluator S α} (hmem : d ∈ x.members) {f : Frame S} (hf : f ∈ d.frames) :
    d.Blocked m x.world := by
  rcases hd.blocked d hmem with ⟨a, ha⟩ | hb
  · rw [(h.composed d hmem).frames_eq_nil ha.focus] at hf
    cases hf
  · exact hb

open Classical in
theorem Reach.exists_barrier (h : Reach m home x issued) (hd : Deadlock m x) :
    ∃ e ∈ x.members, e.Blocked m x.world ∧ ∃ u phase, e.focus = .barrier u phase := by
  by_contra hnone
  have hstuck : ∀ e ∈ x.members, (¬∃ a, e.Gave a) →
      e.Blocked m x.world ∧ ∃ u, e.focus = .blocked u := by
    intro e he hgave
    have hb := (hd.blocked e he).resolve_left hgave
    exact ⟨hb, hb.waits.resolve_right fun hf => hnone ⟨e, he, hb, hf⟩⟩
  have hmem {e : Evaluator S α} (he : e ∈ x.members.filter fun e => ¬∃ a, e.Gave a) :
      e ∈ x.members ∧ ¬∃ a, e.Gave a := by
    simpa using he
  obtain ⟨e, he, u, hu, d, hdm, hout, f, hf, -⟩ := h.exists_outside
    (C := x.members.filter fun e => ¬∃ a, e.Gave a)
    (by
      obtain ⟨e, he, hgave⟩ := hd.unfinished
      exact List.ne_nil_of_mem (List.mem_filter.2 ⟨he, by simpa using hgave⟩))
    (fun e he => (hmem he).1) (fun e he => (hstuck e (hmem he).1 (hmem he).2).1)
    (fun e he => (hstuck e (hmem he).1 (hmem he).2).2)
  have hb := h.blocked_of_frame hd hdm hf
  refine hout (List.mem_filter.2 ⟨hdm, ?_⟩)
  have hgave : ¬∃ a, d.Gave a := by
    rintro ⟨a, ha⟩
    rw [(h.composed d hdm).frames_eq_nil ha.focus] at hf
    cases hf
  simpa using hgave

/-- What an evaluator at the barrier waits for: a unit of a lower phase that runs on
another's stack. -/
theorem Reach.exists_earlier (h : Reach m home x issued) {e : Evaluator S α}
    (he : e ∈ x.members) (hb : e.Blocked m x.world) {u : WorkUnit S.Rule} {phase : Phase}
    (hf : e.focus = .barrier u phase) : ∃ b ∈ issued, ∃ q, b.phase = some q ∧ q < phase ∧
      ∃ d ∈ x.members, d.id ≠ e.id ∧ ∃ f ∈ d.frames, f.unit = b := by
  have horder := h.orderly
  obtain ⟨q, b, hpending, hlt, hnot, hnew⟩ := hb.earlier hf
  rw [horder.at_home e he] at hpending hnew
  obtain ⟨hissued, hq, status, hs, ht⟩ := (horder.lists.pending q b).1 hpending
  have hr : status.isRunning = true := by
    cases status with
    | new => exact absurd hs hnew
    | running | runningRecursive | runningWillFail => rfl
    | success | fail => cases ht
  obtain ⟨d, hd, ⟨f, hfd, hid⟩, -⟩ := horder.exists_owner hs hr
  refine ⟨b, hissued, q, hq, hlt, d, hd, fun heq => ?_, f, hfd,
    horder.lists.eq_of_id (horder.registered d hd f hfd) hissued hid⟩
  obtain rfl := List.inj_on_of_nodup_map horder.ids hd he heq
  exact hnot f hfd hid

/-- **Circular waits.** Evaluators that wait for units running elsewhere do not all wait
for each other. If everybody who has not finished is blocked, then somebody waits at the
barrier for a unit of a lower phase that runs on the stack of another. -/
theorem deadlock_at_barrier (h : Reach m home x issued) :
    (∀ C : List (Evaluator S α), C ≠ [] →
      (∀ e ∈ C, e ∈ x.members ∧ e.Blocked m x.world ∧ ∃ u, e.focus = .blocked u) →
      ∃ e ∈ C, ∃ u, e.focus = .blocked u ∧ ∃ d ∈ x.members, d ∉ C ∧ ∃ f ∈ d.frames,
        f.unit.id = u.id) ∧
    (Deadlock m x → ∃ e ∈ x.members, ∃ u phase, e.focus = .barrier u phase ∧ u ∈ issued ∧
      u.phase = some phase ∧ ∃ b ∈ issued, ∃ q, b.phase = some q ∧ q < phase ∧
        ∃ d ∈ x.members, d.id ≠ e.id ∧ d.Blocked m x.world ∧ ∃ f ∈ d.frames, f.unit = b) := by
  refine ⟨fun C hC hblocked => ?_, fun hd => ?_⟩
  · exact h.exists_outside hC (fun e he => (hblocked e he).1) (fun e he => (hblocked e he).2.1)
      fun e he => (hblocked e he).2.2
  · obtain ⟨e, he, hb, u, phase, hf⟩ := h.exists_barrier hd
    obtain ⟨b, hissued, q, hq, hlt, d, hdm, hne, f, hfd, hunit⟩ := h.exists_earlier he hb hf
    have hphase := (h.composed e he).focus
    rw [hf] at hphase
    exact ⟨e, he, u, phase, hf, h.orderly.mentions e he u (.inl (by rw [hf]; rfl)), hphase, b,
      hissued, q, hq, hlt, d, hdm, hne, h.blocked_of_frame hd hdm hfd, f, hfd, hunit⟩

/-! ## A deadlock -/

private def lower : WorkUnit CellKey := ⟨0, "lower", some 1, ⟨.standard .constant, 0⟩, 0⟩

private def between : WorkUnit CellKey := ⟨1, "between", none, ⟨.standard .constant, 1⟩, 0⟩

private def upper : WorkUnit CellKey := ⟨2, "upper", some 2, ⟨.standard .constant, 2⟩, 0⟩

private def relay : Model Attribute.schema :=
  { Subject.model ⟨Tree.ofProgram (.block []), {}⟩ with
    body := fun c => match c.node with
      | 0 => .ask (.attempt between) fun _ => .pure (.ok ())
      | 1 => .ask (.attempt upper) fun _ => .pure (.ok ())
      | _ => .pure (.ok ()) }

private theorem exists_crossed : ∃ x : Team Attribute.schema Unit,
    Reach relay 0 x [lower, between, upper] ∧ Deadlock relay x := by
  have start := Reach.start (α := Unit) (m := relay) _
    (fresh_start ⟨Tree.ofProgram (.block []), {}⟩ {})
  have hired := start.turn (.hire _ none
    (.ask (.register lower.label lower.phase lower.rule) fun _ =>
      .ask (.register between.label between.phase between.rule) fun _ =>
        .ask (.register upper.label upper.phase upper.rule) fun _ =>
          .ask (.attempt lower) fun _ => .pure ()))
  have first := hired.turn (.step _ _ [] [] _ _ 0 (fun _ => false)
    (fun u hu => by rcases hu with hu | ⟨c, hu⟩ <;> cases hu) rfl)
  have second := first.turn (.step _ _ [] [] _ _ 0 (fun _ => false)
    (fun u hu => by rcases hu with hu | ⟨c, hu⟩ <;> cases hu) rfl)
  have third : Reach relay 0 _ [lower, between, upper] := second.turn (.step _ _ [] [] _ _ 0
    (fun _ => false) (fun u hu => by rcases hu with hu | ⟨c, hu⟩ <;> cases hu) rfl)
  have asked : Reach relay 0 _ [lower, between, upper] :=
    third.turn (.asking [] [] (v := lower) rfl List.mem_cons_self rfl)
  have claimed : Reach relay 0 _ [lower, between, upper] :=
    asked.turn (.quiet [] [] 0 rfl rfl)
  have joined : Reach relay 0 _ [lower, between, upper] := claimed.turn (.hire _ none
    (.ask (.attempt between) fun _ => .pure ()))
  have called : Reach relay 0 _ [lower, between, upper] := joined.turn
    (.asking [_] [] (v := between) rfl (.tail _ (.head _)) rfl)
  have running : Reach relay 0 _ [lower, between, upper] :=
    called.turn (.quiet [_] [] 0 rfl rfl)
  have wanted : Reach relay 0 _ [lower, between, upper] := running.turn
    (.asking [_] [] (v := upper) rfl
      (.tail _ (.tail _ (.head _))) rfl)
  have stopped : Reach relay 0 _ [lower, between, upper] :=
    wanted.turn (.quiet [_] [] 0 rfl rfl)
  have crossing : Reach relay 0 _ [lower, between, upper] := stopped.turn
    (.asking [] [_] (v := between) rfl (.tail _ (.head _)) rfl)
  have crossed : Reach relay 0 _ [lower, between, upper] :=
    crossing.turn (.quiet [] [_] 0 rfl rfl)
  refine ⟨_, crossed, ⟨_, List.mem_cons_self, ?_⟩, ?_⟩
  · rintro a ⟨hf, -⟩
    cases hf
  · refine List.forall_mem_cons.2 ⟨.inr ⟨.inl ⟨_, rfl⟩, fun pick => rfl⟩, ?_⟩
    exact List.forall_mem_singleton.2 (.inr ⟨.inr ⟨_, _, rfl⟩, fun pick => rfl⟩)

/-- Two evaluators that hold each other up: one runs the unit of phase 1 and waits for the
unit without a phase, the other runs that unit and waits at the barrier for phase 1. -/
theorem deadlock_at_barrier_crossed : ∃ x : Team Attribute.schema Unit,
    Reach relay 0 x [lower, between, upper] ∧ Deadlock relay x ∧
    ∃ e ∈ x.members, ∃ u phase, e.focus = .barrier u phase ∧ u ∈ [lower, between, upper] ∧
      u.phase = some phase ∧ ∃ b ∈ [lower, between, upper], ∃ q, b.phase = some q ∧ q < phase ∧
        ∃ d ∈ x.members, d.id ≠ e.id ∧ d.Blocked relay x.world ∧ ∃ f ∈ d.frames, f.unit = b := by
  obtain ⟨x, hreach, hdead⟩ := exists_crossed
  exact ⟨x, hreach, hdead, (deadlock_at_barrier hreach).2 hdead⟩

end Team

end Attribution.Engine
