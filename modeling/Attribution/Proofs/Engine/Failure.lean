import Attribution.Proofs.Engine.Account
import Attribution.Proofs.Engine.Effect
/-!
# Failures

A body may fail any number of times, and its unit may be run many times over. The
unit still reports once in its life: the first failure marks it, the mark is kept
until its run ends, and a marked run ends in a status that is final.

* `Accounted` is the invariant that a step preserves (`Accounted.step`);
* `fail_reports_once` says what it means for every run.
-/

namespace Attribution.Engine

variable {S : Schema} {α : Type}

def Event.report? : Event → Option Diagnostic
  | .reported d => some d
  | _ => none

namespace Deed

def failure? (id : UnitId) (t : Deed S α) : Option Diagnostic :=
  match t.actor.request? with
  | some (.fail d) => if t.actor.reader? = some id then some d else none
  | _ => none

def sent (t : Deed S α) : List Diagnostic :=
  (t.after.journal.take (t.after.journal.length - t.before.journal.length)).filterMap
    fun x => x.2.report?

/-- The reports that the unit sends by failing in this step. -/
def reports (id : UnitId) (t : Deed S α) : List Diagnostic :=
  if (t.failure? id).isSome then t.sent else []

variable {id : UnitId} {t : Deed S α} {d : Diagnostic}

theorem failure?_eq_some : t.failure? id = some d ↔ t.actor.request? = some (.fail d) ∧
    ∃ f rest, t.actor.frames = f :: rest ∧ f.unit.id = id := by
  unfold failure? Evaluator.reader?
  cases hr : t.actor.request? with
  | none => simp
  | some r =>
    cases r with
    | fail d' =>
      cases hf : t.actor.frames with
      | nil => simp
      | cons f rest => simp [and_comm]
    | _ => simp

theorem reports_of_none (h : t.failure? id = none) : t.reports id = [] := by
  rw [reports, h]
  rfl

theorem reports_of_some (h : t.failure? id = some d) : t.reports id = t.sent := by
  rw [reports, h]
  rfl

theorem sent_of_journal {x : Option Nat × Event} (h : t.after.journal = x :: t.before.journal) :
    t.sent = x.2.report?.toList := by
  have hlength : t.after.journal.length - t.before.journal.length = 1 := by
    rw [h, List.length_cons]
    omega
  rw [sent, hlength, h, List.take_succ_cons, List.take_zero]
  cases hx : x.2.report? with
  | none => simp [hx]
  | some d => simp [hx]

end Deed

theorem World.journal_report (m : Model S) (w : World S) (origin : Option Nat) (i : SchedulerId)
    (d : Diagnostic) : (w.report m origin i d).journal = (origin, .reported d) :: w.journal := by
  unfold report
  dsimp only
  split
  all_goals rfl

/-- What a failure does: the first one is reported and marks the frame, a later one
leaves no more than a trace. -/
theorem Evaluator.fail_of_step {m : Model S} {pick : Nat} {w w' : World S}
    {e e' : Evaluator S α} (h : e.step m pick w = some (w', e')) {d : Diagnostic}
    (hr : e.request? = some (.fail d)) {f : Frame S} {rest : List (Frame S)}
    (hf : e.frames = f :: rest) :
    (f.doomed = true ∧ w' = w.note e.worker (.suppressed f.unit.label d.message)) ∨
      (f.doomed = false ∧ w'.journal = (e.worker, .reported d) :: w.journal ∧
        e'.frames = { f with doomed := true } :: rest) := by
  obtain ⟨next, hserve⟩ := e.serve_of_step h hr
  have hfail : (e.resume (next ())).fail m w d = (w', e') := Option.some.inj hserve
  unfold fail at hfail
  simp only [resume, hf] at hfail
  cases hd : f.doomed with
  | true =>
    rw [hd] at hfail
    cases hfail
    exact .inl ⟨rfl, rfl⟩
  | false =>
    rw [hd] at hfail
    cases hfail
    exact .inr ⟨rfl, World.journal_report _ _ _ _ _, rfl⟩

theorem Evaluator.outlet_of_fail {m : Model S} {pick : Nat} {w w' : World S}
    {e e' : Evaluator S α} (h : e.step m pick w = some (w', e'))
    (hhome : e.home < w.schedulers.size) {d : Diagnostic} (hr : e.request? = some (.fail d))
    {f : Frame S} {rest : List (Frame S)} (hf : e.frames = f :: rest) (hd : f.doomed = false) :
    w'.outlet e.home = (w.outlet e.home).receive m d := by
  have hseen : e.occurrences w = [.reported d] := by
    simp [occurrences_of_request hr, serving, hf, hd]
  have haffects := affects_of_step hhome h
  rw [hseen] at haffects
  exact haffects.outlet

theorem Evaluator.doomed_of_step {m : Model S} {pick : Nat} {w w' : World S}
    {e e' : Evaluator S α} (h : e.step m pick w = some (w', e')) {f : Frame S}
    (hf : f ∈ e'.frames) (hd : f.doomed = true) :
    (∃ g ∈ e.frames, g.unit = f.unit ∧ g.doomed = true) ∨
      ∃ d g rest, e.request? = some (.fail d) ∧ e.frames = g :: rest ∧ g.unit = f.unit := by
  by_cases hclosing : ∃ result, e.writes = [] ∧ e.focus = .closing result
  · obtain ⟨result, hw, hfocus⟩ := hclosing
    obtain ⟨g, hframes, -⟩ := e.settle_of_step h hw hfocus
    exact .inl ⟨f, by rw [hframes]; exact List.mem_cons_of_mem _ hf, rfl, hd⟩
  · have hshift :=
      (shift_of_step h fun hw result hfocus => hclosing ⟨result, hw, hfocus⟩).frames
    generalize e'.frames = frames at hshift hf
    cases hshift with
    | same => exact .inl ⟨f, hf, rfl, hd⟩
    | @fill g rest c v hr hg =>
      rcases List.mem_cons.1 hf with rfl | hf
      · exact .inl ⟨g, by rw [hg]; exact List.mem_cons_self, rfl, hd⟩
      · exact .inl ⟨f, by rw [hg]; exact List.mem_cons_of_mem _ hf, rfl, hd⟩
    | @doom g rest d hr hg =>
      rcases List.mem_cons.1 hf with rfl | hf
      · exact .inr ⟨d, g, rest, hr, hg, rfl⟩
      · exact .inl ⟨f, by rw [hg]; exact List.mem_cons_of_mem _ hf, rfl, hd⟩
    | claim u =>
      rcases List.mem_cons.1 hf with rfl | hf
      · cases hd
      · exact .inl ⟨f, hf, rfl, hd⟩
    | join index =>
      obtain ⟨g, hg, hunit, hdoomed⟩ := Frame.exists_of_mem_joinCycleAbove hf
      exact .inl ⟨g, hg, hunit.symm, hdoomed ▸ hd⟩

/-- A marked unit stays marked until it has failed. -/
theorem Status.Change.marked {before after : Option Status} (h : Status.Change before after)
    (hb : before = some .runningWillFail ∨ before = some .fail) :
    after = some .runningWillFail ∨ after = some .fail := by
  rcases h with h | ⟨h, -⟩ | ⟨a, b, ha, hafter, hc⟩
  · rw [h]
    exact hb
  · rw [h] at hb
    rcases hb with hb | hb <;> cases hb
  · rw [ha] at hb
    rcases hb with hb | hb
    · cases hb
      cases b with
      | fail => exact .inr hafter
      | _ => cases hc
    · cases hb
      cases hc

namespace Team

variable {m : Model S} {home : SchedulerId} {x : Team S α} {issued : List (WorkUnit S.Rule)}
  {log : List (Deed S α)} {id : UnitId}

def failures (id : UnitId) (log : List (Deed S α)) : List Diagnostic :=
  log.filterMap (Deed.failure? id)

/-- What is known of a unit and its failures so far. -/
structure Accounted (home : SchedulerId) (x : Team S α) (log : List (Deed S α)) (id : UnitId) :
    Prop where
  reported : log.flatMap (Deed.reports id) = (failures id log).getLast?.toList
  marked : failures id log ≠ [] → (x.world.scheduler home).status? id = some .runningWillFail ∨
    (x.world.scheduler home).status? id = some .fail
  doomed : ∀ e ∈ x.members, ∀ f ∈ e.frames, f.unit.id = id → f.doomed = true →
    failures id log ≠ []

theorem Accounted.step {w w' : World S} {before after : List (Evaluator S α)}
    {e e' : Evaluator S α} {pick : Nat} {elsewhere : S.Key → Bool}
    (h : Accounted home ⟨w, before ++ e :: after⟩ log id)
    (ho : Orderly home ⟨w, before ++ e :: after⟩ issued)
    (hasks : ∀ u, e.Asks u → u ∈ issued)
    (hstep : e.step m pick { w with elsewhere } = some (w', e')) :
    Accounted home ⟨w', before ++ e' :: after⟩ (⟨{ w with elsewhere }, e, w', e'⟩ :: log) id := by
  obtain ⟨ho', hchange⟩ := ho.step hasks hstep
  have he : e ∈ before ++ e :: after := by simp
  have he' : e' ∈ before ++ e' :: after := by simp
  cases hfailure : Deed.failure? id ⟨{ w with elsewhere }, e, w', e'⟩ with
  | none =>
    have hfailures : failures id (⟨{ w with elsewhere }, e, w', e'⟩ :: log) = failures id log :=
      List.filterMap_cons_none hfailure
    refine ⟨?_, ?_, ?_⟩
    · rw [List.flatMap_cons, Deed.reports_of_none hfailure, hfailures]
      exact h.reported
    · rw [hfailures]
      exact fun hne => (hchange id).marked (h.marked hne)
    · rw [hfailures]
      intro d hd f hf hid hdoomed
      rcases mem_splice.1 hd with rfl | hd
      · rcases Evaluator.doomed_of_step hstep hf hdoomed with
          ⟨g, hg, hunit, hdoomed⟩ | ⟨report, g, rest, hr, hg, hunit⟩
        · exact h.doomed e he g hg (hunit ▸ hid) hdoomed
        · rw [Deed.failure?_eq_some.2 ⟨hr, g, rest, hg, hunit ▸ hid⟩] at hfailure
          cases hfailure
      · exact h.doomed d (mem_splice.2 (.inr hd)) f hf hid hdoomed
  | some d =>
    have hfailures : failures id (⟨{ w with elsewhere }, e, w', e'⟩ :: log) =
        d :: failures id log := List.filterMap_cons_some hfailure
    obtain ⟨hr, f, rest, hf, hid⟩ := Deed.failure?_eq_some.1 hfailure
    have hheld := ho.held e he f (by rw [hf]; exact List.mem_cons_self)
    obtain ⟨status, hstatus, hrunning, hdoomed⟩ := hheld.status
    rw [hid] at hstatus
    rcases Evaluator.fail_of_step hstep hr hf with ⟨hd, hw⟩ | ⟨hd, hjournal, hframes⟩
    · -- The unit has failed before, and that was reported.
      have hbefore : failures id log ≠ [] :=
        h.doomed e he f (by rw [hf]; exact List.mem_cons_self) hid hd
      refine ⟨?_, fun _ => (hchange id).marked (h.marked hbefore), fun _ _ _ _ _ _ => ?_⟩
      · rw [List.flatMap_cons, Deed.reports_of_some hfailure,
          Deed.sent_of_journal (x := (e.worker, .suppressed f.unit.label d.message))
            (by rw [show w' = _ from hw]; rfl), hfailures,
          List.getLast?_cons_of_ne_nil hbefore, h.reported]
        rfl
      · rw [hfailures]
        exact List.cons_ne_nil _ _
    · -- The frame is not marked yet, so this is the first failure.
      have hfirst : failures id log = [] := by
        refine Decidable.byContradiction fun hne => ?_
        rcases h.marked hne with hs | hs
        · rw [hdoomed.1 (Option.some.inj (hstatus.symm.trans hs))] at hd
          cases hd
        · rw [Option.some.inj (hstatus.symm.trans hs)] at hrunning
          cases hrunning
      refine ⟨?_, fun _ => .inl ?_, fun _ _ _ _ _ _ => ?_⟩
      · rw [List.flatMap_cons, Deed.reports_of_some hfailure, Deed.sent_of_journal hjournal,
          h.reported, hfailures, hfirst]
        rfl
      · have hmem : { f with doomed := true } ∈ e'.frames := by
          rw [hframes]
          exact List.mem_cons_self
        obtain ⟨status', hstatus', -, hdoomed'⟩ := (ho'.held e' he' _ hmem).status
        rw [← hid]
        exact hstatus'.trans (congrArg some (hdoomed'.2 rfl))
      · rw [hfailures]
        exact List.cons_ne_nil _ _

theorem Account.accounted (h : Account m home x issued log) (id : UnitId) :
    Accounted home x log id := by
  induction h with
  | start w h => exact ⟨rfl, fun hne => absurd rfl hne, fun e he => absurd he List.not_mem_nil⟩
  | @hire x issued log hx worker a ih =>
    refine ⟨ih.reported, ih.marked, fun e he f hf => ?_⟩
    rcases List.mem_append.1 he with he | he
    · exact ih.doomed e he f hf
    · rw [List.mem_singleton.1 he] at hf
      exact absurd hf List.not_mem_nil
  | @resume w before after e issued log hx b a hw hfocus ih =>
    refine ⟨ih.reported, ih.marked, fun d hd f hf => ?_⟩
    rcases mem_splice.1 hd with rfl | hd
    · exact ih.doomed e (mem_splice.2 (.inl rfl)) f hf
    · exact ih.doomed d (mem_splice.2 (.inr hd)) f hf
  | step hx pick elsewhere hasks hstep ih => exact ih.step hx.reach.orderly hasks hstep

/-- Asking for a marked unit from above it on the stack changes nothing. -/
theorem failing_of_reentered {e : Evaluator S α} {w : World S} {u : WorkUnit S.Rule} {pick : Nat}
    (hw : e.writes = []) (hfocus : e.focus = .enter u) (hf : ∃ f ∈ e.frames, f.unit.id = u.id)
    (hs : (w.scheduler e.home).status? u.id = some .runningWillFail) :
    e.step m pick w = some (w, e.reply (.ok .failing)) := by
  obtain ⟨f, hf, hid⟩ := hf
  have hadmission : ∃ index, e.admission (w.scheduler e.home) u = .reentered index := by
    cases hi : Frame.indexOf? u.id e.frames with
    | none => exact absurd hid (Frame.indexOf?_eq_none_iff.1 hi f hf)
    | some index => exact ⟨index, by rw [Evaluator.admission, hi]⟩
  obtain ⟨index, hadmission⟩ := hadmission
  rw [Evaluator.step, hw]
  simp only [hfocus, Evaluator.enter, hadmission, hs, if_true]

/-- **A failing unit reports once.** Over all its runs a unit sends no report by
failing but the first, which is all that reaches the session's reporter in that step, and
any other failure leaves no more than a trace. From then on it is marked while it is on a
stack, and has failed for good when it is on none. As long as it is on the stack of an
evaluator, every attempt of that evaluator to run it comes back as failing, and the world
and the stack stay as they are. -/
theorem fail_reports_once (h : Account m home x issued log) (id : UnitId) :
    log.flatMap (Deed.reports id) = (failures id log).getLast?.toList ∧
    (∀ t ∈ log, ∀ d, t.failure? id = some d → t.reports id = [] → ∃ label,
      t.after = t.before.note t.actor.worker (.suppressed label d.message)) ∧
    (∀ t ∈ log, ∀ d, t.failure? id = some d → t.reports id ≠ [] →
      t.reports id = [d] ∧ t.after.outlet home = (t.before.outlet home).receive m d) ∧
    (failures id log ≠ [] →
      (x.world.scheduler home).status? id =
        some (if (x.sightings id).isEmpty then .fail else .runningWillFail) ∧
      ∀ e ∈ x.members, (∃ f ∈ e.frames, f.unit.id = id) → ∀ u, u.id = id → e.writes = [] →
        e.focus = .enter u → ∀ pick elsewhere,
          e.step m pick { x.world with elsewhere } =
            some ({ x.world with elsewhere }, e.reply (.ok .failing))) := by
  have hacc := h.accounted id
  have ho := h.reach.orderly
  refine ⟨hacc.reported, fun t ht d hd hsilent => ?_, fun t ht d hd hloud => ?_,
    fun hne => ⟨?_, ?_⟩⟩
  · obtain ⟨pick, hstep⟩ := h.step_of_mem ht
    obtain ⟨hr, f, rest, hf, -⟩ := Deed.failure?_eq_some.1 hd
    rcases Evaluator.fail_of_step hstep hr hf with ⟨-, hw⟩ | ⟨-, hjournal, -⟩
    · exact ⟨f.unit.label, hw⟩
    · rw [Deed.reports_of_some hd, Deed.sent_of_journal hjournal] at hsilent
      cases hsilent
  · obtain ⟨pick, hstep⟩ := h.step_of_mem ht
    obtain ⟨hhome, hlt⟩ := h.home_of_mem ht
    obtain ⟨hr, f, rest, hf, -⟩ := Deed.failure?_eq_some.1 hd
    rw [Deed.reports_of_some hd] at hloud ⊢
    rcases Evaluator.fail_of_step hstep hr hf with ⟨-, hw⟩ | ⟨hfirst, hjournal, -⟩
    · have hsent : t.sent = [] := Deed.sent_of_journal
        (x := (t.actor.worker, .suppressed f.unit.label d.message)) (congrArg World.journal hw)
      exact absurd hsent hloud
    · have houtlet := Evaluator.outlet_of_fail hstep (by rw [hhome]; exact hlt) hr hf hfirst
      rw [hhome] at houtlet
      exact ⟨Deed.sent_of_journal hjournal, houtlet⟩
  · rcases hacc.marked hne with hs | hs
    · obtain ⟨owner, f, hsight, -⟩ := (ho.consistent.running id _ hs).1 rfl
      rw [hs, hsight]
      rfl
    · rw [hs, (ho.consistent.idle id _ hs rfl).1]
      rfl
  · intro e he hf u hu hw hfocus pick elsewhere
    subst hu
    obtain ⟨f, hf, hid⟩ := hf
    obtain ⟨status, hstatus, hrunning, -⟩ := (ho.held e he f hf).status
    rw [hid] at hstatus
    refine failing_of_reentered hw hfocus ⟨f, hf, hid⟩ ?_
    rw [ho.at_home e he]
    change (x.world.scheduler home).status? u.id = _
    rcases hacc.marked hne with hs | hs
    · exact hs
    · rw [Option.some.inj (hstatus.symm.trans hs)] at hrunning
      cases hrunning

private def faulty : WorkUnit Nat := ⟨0, "faulty", none, 0, 0⟩

private def complaint (text : String) : Diagnostic := ⟨.ruleViolation, text, ⟨1, 1⟩⟩

private def faltering : Model sheet :=
  .ofBodies fun _ => .ask (.fail (complaint "first")) fun _ =>
    .ask (.fail (complaint "second")) fun _ => .ask (.attempt faulty) fun _ => .pure (.ok ())

private theorem exists_faltered : ∃ (x : Team sheet Unit) (log : List (Deed sheet Unit)),
    Account faltering 0 x [faulty] log ∧
    failures 0 log = [complaint "second", complaint "first"] ∧
    (∃ t ∈ log, t.failure? 0 = some (complaint "first") ∧ t.reports 0 = [complaint "first"]) ∧
    (x.world.scheduler 0).buffer = #[complaint "first"] ∧
    ∃ e ∈ x.members, (∃ f ∈ e.frames, f.unit.id = 0) ∧ e.writes = [] ∧ e.focus = .enter faulty := by
  have start := Account.start (α := Unit) (m := faltering) _ fresh_sheet
  have hired := start.hire none (.ask (.register "faulty" none (0 : Nat)) fun u =>
    .ask (.attempt u) fun _ => .pure ())
  have registered : Account faltering 0 _ [faulty] _ := hired.alone (nofun) rfl
  have asked : Account faltering 0 _ [faulty] _ :=
    registered.asking (v := faulty) rfl (List.mem_singleton.2 rfl) rfl
  have claimed : Account faltering 0 _ [faulty] _ := asked.alone (nofun) rfl
  have failed : Account faltering 0 _ [faulty] _ := claimed.alone (nofun) rfl
  have again : Account faltering 0 _ [faulty] _ := failed.alone (nofun) rfl
  have reentered : Account faltering 0 _ [faulty] _ :=
    again.asking (v := faulty) rfl (List.mem_singleton.2 rfl) rfl
  exact ⟨_, _, reentered, rfl,
    ⟨_, List.mem_cons_of_mem _ (List.mem_cons_of_mem _ List.mem_cons_self), rfl, rfl⟩, rfl, _,
    List.mem_singleton.2 rfl, ⟨_, List.mem_singleton.2 rfl, rfl⟩, rfl, rfl⟩

/-- A unit that has failed twice and asks for itself: the first failure was reported and is
all that the session has kept, and the unit learns that it is failing. -/
theorem fail_reports_once_twice :
    ∃ (x : Team sheet Unit) (log : List (Deed sheet Unit)),
      Account faltering 0 x [faulty] log ∧
      failures 0 log = [complaint "second", complaint "first"] ∧
      log.flatMap (Deed.reports 0) = [complaint "first"] ∧
      (∃ t ∈ log, t.failure? 0 = some (complaint "first") ∧
        t.after.outlet 0 = (t.before.outlet 0).receive faltering (complaint "first")) ∧
      (x.world.scheduler 0).buffer = #[complaint "first"] ∧
      ∃ e ∈ x.members, e.focus = .enter faulty ∧ ∀ pick elsewhere,
        e.step faltering pick { x.world with elsewhere } =
          some ({ x.world with elsewhere }, e.reply (.ok .failing)) := by
  obtain ⟨x, log, h, hfailures, ⟨t, ht, hfailure, hsent⟩, hbuffer, e, he, hf, hw, hfocus⟩ :=
    exists_faltered
  obtain ⟨hreports, -, hloud, hmarked⟩ := fail_reports_once h 0
  rw [hfailures] at hreports
  have hne : failures 0 log ≠ [] := by
    rw [hfailures]
    exact List.cons_ne_nil _ _
  have hkept := hloud t ht _ hfailure (by rw [hsent]; exact List.cons_ne_nil _ _)
  exact ⟨x, log, h, hfailures, hreports, ⟨t, ht, hfailure, hkept.2⟩, hbuffer, e, he, hfocus,
    (hmarked hne).2 e he hf faulty rfl hw hfocus⟩

end Team

end Attribution.Engine
