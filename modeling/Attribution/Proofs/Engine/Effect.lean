import Attribution.Proofs.Engine.History
/-!
# Effects

What an evaluation does outside the cells. Hooks and code change the environment, and a
report is kept by the session or handed to the environment. Nothing else does either, so
both can be computed from the history.

* `Occurrence.affect` is the effect of what was observed;
* `Evaluator.affects_of_step` says that a step has the effect of what is observed of it;
* `Traces.affects` says so for every run.
-/

namespace Attribution.Engine

variable {S : Schema} {α : Type}

/-- What a session has to show for itself, its cells aside. -/
structure Outlet (S : Schema) where
  reporter : Reporter
  buffer : Array Diagnostic
  env : S.Env

def Outlet.receive (m : Model S) (x : Outlet S) (d : Diagnostic) : Outlet S :=
  match x.reporter with
  | .buffer => { x with buffer := x.buffer.push d }
  | .custom => { x with env := m.receive d x.env }

namespace Outlet

variable {m : Model S} {x : Outlet S}

theorem receive_of_buffer (h : x.reporter = .buffer) (d : Diagnostic) :
    x.receive m d = { x with buffer := x.buffer.push d } := by
  rw [receive, h]

theorem receive_of_custom (h : x.reporter = .custom) (d : Diagnostic) :
    x.receive m d = { x with env := m.receive d x.env } := by
  rw [receive, h]

end Outlet

def Occurrence.affect (m : Model S) (x : Outlet S) : Occurrence S → Outlet S
  | .called c h v => { x with env := (m.react c h v x.env).1 }
  | .reported d => x.receive m d
  | .changed f => { x with env := f x.env }
  | _ => x

def History.affect (m : Model S) (log : History S) (x : Outlet S) : Outlet S :=
  log.foldl (Occurrence.affect m) x

@[simp] theorem History.affect_append (m : Model S) (log new : History S) (x : Outlet S) :
    (log ++ new).affect m x = new.affect m (log.affect m x) :=
  List.foldl_append

/-- What is observed has no effect outside the cells. -/
def History.Inert (log : History S) : Prop :=
  ∀ (m : Model S) (x : Outlet S), log.affect m x = x

namespace History

theorem inert_nil : Inert ([] : History S) :=
  fun _ _ => rfl

theorem inert_singleton {o : Occurrence S} (h : ∀ m x, o.affect m x = x) : Inert [o] :=
  h

theorem Inert.append {log new : History S} (h : log.Inert) (h' : new.Inert) :
    (log ++ new).Inert := by
  intro m x
  rw [affect_append, h m, h' m]

end History

namespace World

def outlet (w : World S) (i : SchedulerId) : Outlet S :=
  ⟨(w.scheduler i).reporter, (w.scheduler i).buffer, w.env⟩

theorem outlet_congr {w w' : World S} (hs : w'.schedulers = w.schedulers) (he : w'.env = w.env)
    (i : SchedulerId) : w'.outlet i = w.outlet i := by
  rw [outlet, outlet, scheduler, scheduler, hs, he]

theorem outlet_modifyScheduler (w : World S) (i : SchedulerId)
    {f : Scheduler S.Rule → Scheduler S.Rule}
    (hf : ∀ s, (f s).reporter = s.reporter ∧ (f s).buffer = s.buffer) (j : SchedulerId) :
    (w.modifyScheduler i f).outlet j = w.outlet j := by
  unfold outlet
  rw [scheduler_modifyScheduler]
  split
  · rw [(hf _).1, (hf _).2]
    rfl
  · rfl

theorem outlet_foldl_softened (w : World S) (cells : List S.Key) (i : SchedulerId) :
    let w' := cells.foldl (fun w c =>
      w.modifyCell c fun cell => { cell with value := cell.value.softened }) w
    w'.schedulers.size = w.schedulers.size ∧ w'.outlet i = w.outlet i := by
  induction cells generalizing w with
  | nil => exact ⟨rfl, rfl⟩
  | cons c rest ih => exact ih _

theorem size_report (m : Model S) (w : World S) (origin : Option Nat) (i : SchedulerId)
    (d : Diagnostic) : (w.report m origin i d).schedulers.size = w.schedulers.size := by
  have halike : w.Alike i (w.report m origin i d) := w.alike_report m origin i d
  exact halike.size

theorem outlet_report (m : Model S) (w : World S) (origin : Option Nat) {i : SchedulerId}
    (hi : i < w.schedulers.size) (d : Diagnostic) :
    (w.report m origin i d).outlet i = (w.outlet i).receive m d := by
  unfold report
  dsimp only
  split
  · rename_i hr
    rw [Outlet.receive_of_buffer hr]
    unfold outlet
    rw [scheduler_modifyScheduler_self (w.note origin (.reported d)) hi]
    rfl
  · rename_i hr
    rw [Outlet.receive_of_custom hr]
    rfl

end World

namespace Evaluator

open History

variable {m : Model S} {pick : Nat} {w w' : World S} {e e' : Evaluator S α} {log : History S}

/-- What a step does outside the cells is the effect of what is observed. -/
structure Affects (m : Model S) (log : History S) (w : World S) (e : Evaluator S α)
    (w' : World S) (e' : Evaluator S α) : Prop where
  home : e'.home = e.home
  size : w'.schedulers.size = w.schedulers.size
  outlet : w'.outlet e.home = log.affect m (w.outlet e.home)

theorem Affects.still (hhome : e'.home = e.home) (hs : w'.schedulers.size = w.schedulers.size)
    (hw : w'.outlet e.home = w.outlet e.home) (hlog : log.Inert) : Affects m log w e w' e' :=
  ⟨hhome, hs, by rw [hw, hlog m]⟩

theorem Affects.of_cells (hhome : e'.home = e.home) (hs : w'.schedulers = w.schedulers)
    (he : w'.env = w.env) (hlog : log.Inert) : Affects m log w e w' e' :=
  .still hhome (by rw [hs]) (World.outlet_congr hs he _) hlog

theorem Affects.of_table (f : Scheduler S.Rule → Scheduler S.Rule)
    (hf : ∀ s, (f s).reporter = s.reporter ∧ (f s).buffer = s.buffer) (hhome : e'.home = e.home)
    (hlog : log.Inert) : Affects m log w e (w.modifyScheduler e.home f) e' :=
  .still hhome (w.size_modifyScheduler _ _) (w.outlet_modifyScheduler _ hf _) hlog

theorem Affects.note {origin : Option Nat} {event : Event} (h : Affects m log w e w' e') :
    Affects m log w e (w'.note origin event) e' :=
  ⟨h.home, h.size, h.outlet⟩

theorem Affects.of_report (hhome : e.home < w.schedulers.size) (he : e'.home = e.home)
    (origin : Option Nat) (d : Diagnostic) :
    Affects m [.reported d] w e (w.report m origin e.home d) e' :=
  ⟨he, w.size_report m origin e.home d, w.outlet_report m origin hhome d⟩

theorem Affects.of_some {result : World S × Evaluator S α}
    (h : Affects m log w e result.1 result.2) (heq : some result = some (w', e')) :
    Affects m log w e w' e' := by
  cases heq
  exact h

theorem Affects.trans {w'' : World S} {e'' : Evaluator S α} {new : History S}
    (h : Affects m log w e w' e') (h' : Affects m new w' e' w'' e'') :
    Affects m (log ++ new) w e w'' e'' := by
  refine ⟨h'.home.trans h.home, h'.size.trans h.size, ?_⟩
  rw [affect_append, ← h.outlet, ← h.home]
  exact h'.outlet

theorem inert_entering (e : Evaluator S α) (s : Scheduler S.Rule) (u : WorkUnit S.Rule) :
    (e.entering s u).Inert := by
  unfold entering
  split
  · exact inert_singleton fun _ _ => rfl
  · split
    · exact inert_nil
    · exact inert_singleton fun _ _ => rfl
  · exact inert_nil
  · rename_i index _ _
    cases e.frames.reverse[index]? with
    | none => exact inert_nil
    | some f => exact inert_singleton fun _ _ => rfl
  · exact inert_nil

theorem inert_demoting (w : World S) (cells : List S.Key) : (w.demoting cells).Inert := by
  induction cells generalizing w with
  | nil => exact inert_nil
  | cons c rest ih =>
    rw [World.demoting]
    refine .append ?_ (ih _)
    split
    · exact inert_singleton fun _ _ => rfl
    · exact inert_nil

theorem inert_closing (e : Evaluator S α) (w : World S) : (e.closing w).Inert := by
  unfold closing
  split
  · exact inert_nil
  · rename_i f rest hf
    split
    · exact inert_nil
    · split
      · exact inert_demoting w f.fills
      · exact inert_nil

theorem inert_finishing (e : Evaluator S α) (w : World S) (c : S.Key) (outcome : Attempt) :
    (e.finishing w c outcome).Inert := by
  unfold finishing
  split
  all_goals exact fun _ _ => rfl

theorem affects_write (next : Write S) (rest : List (Write S)) (hw : e.writes = next :: rest) :
    Affects m (e.occurrences w) w e (e.write m w next rest).1 (e.write m w next rest).2 := by
  unfold occurrences
  rw [hw]
  cases next with
  | force c v => exact .of_cells rfl rfl rfl (inert_singleton fun _ _ => rfl)
  | notify c hook v => exact ⟨rfl, rfl, rfl⟩

theorem affects_fill (code : Code S α) (c : S.Key) (v : S.Val c) :
    Affects m (e.serving w (.fill c v)) w e ((e.resume code).fill w c v).1
      ((e.resume code).fill w c v).2 := by
  unfold fill serving
  simp only [resume]
  cases e.frames with
  | nil => exact .of_cells rfl rfl rfl inert_nil
  | cons f rest =>
    dsimp only
    cases f.head.isSome || f.doomed with
    | true => exact .of_cells rfl rfl rfl (inert_singleton fun _ _ => rfl)
    | false => exact .of_cells rfl rfl rfl inert_nil

theorem affects_fail (hhome : e.home < w.schedulers.size) (code : Code S α) (d : Diagnostic) :
    Affects m (e.serving w (.fail d)) w e ((e.resume code).fail m w d).1
      ((e.resume code).fail m w d).2 := by
  unfold fail serving
  simp only [resume]
  cases e.frames with
  | nil =>
    refine .of_report hhome ?_ e.worker d
    rfl
  | cons f rest =>
    dsimp only
    cases f.doomed with
    | true => exact .of_cells rfl rfl rfl inert_nil
    | false =>
      have hmark : Affects m [] w e (w.modifyScheduler e.home fun s =>
          s.setStatus f.unit.id .runningWillFail) e :=
        .of_table (fun s => s.setStatus f.unit.id _) (fun _ => ⟨rfl, rfl⟩) rfl inert_nil
      refine hmark.trans (.of_report ?_ ?_ e.worker d)
      · rw [hmark.size]
        exact hhome
      · rfl

theorem affects_reset (origin : Option Nat) (c : S.Key) (code : Code S α) :
    Affects m (e.serving w (.reset c)) w e (w.reset origin c) (e.resume code) := by
  have hlog : (e.serving w (.reset c)).Inert := inert_singleton fun _ _ => rfl
  unfold World.reset
  dsimp only
  split
  · exact .of_cells rfl rfl rfl hlog
  · split
    · refine .still rfl (World.size_modifyScheduler (w.setValue c .unset) _ _) ?_ hlog
      refine (w.setValue c .unset).outlet_modifyScheduler _ ?_ e.home
      exact fun _ => ⟨rfl, rfl⟩
    · exact .of_cells rfl rfl rfl hlog

theorem affects_serve (hhome : e.home < w.schedulers.size) {r : Request S}
    {next : r.Answer → Code S α} (h : e.serve m w r next = some (w', e')) :
    Affects m (e.serving w r) w e w' e' := by
  cases r with
  | env change =>
    cases h
    exact ⟨rfl, rfl, rfl⟩
  | register label phase rule =>
    cases h
    exact .of_table (fun s => s.register _) (fun _ => ⟨rfl, rfl⟩) rfl inert_nil
  | look | attempt | force | note | crash =>
    cases h
    exact .of_cells rfl rfl rfl inert_nil
  | resolveWith | addHook | soften =>
    cases h
    exact .of_cells rfl rfl rfl (inert_singleton fun _ _ => rfl)
  | probe c =>
    cases h
    have hhome : (e.startProbe w c next).home = e.home := by
      unfold startProbe
      dsimp only
      split
      all_goals rfl
    refine .of_cells hhome rfl rfl ?_
    unfold serving
    dsimp only
    split
    all_goals exact fun _ _ => rfl
  | fill c v =>
    exact (affects_fill (next ()) c v).of_some h
  | reset c =>
    cases h
    exact affects_reset e.worker c (next ())
  | fail d =>
    exact (affects_fail hhome (next ()) d).of_some h
  | report d =>
    cases h
    refine .of_report hhome ?_ e.worker d
    rfl
  | await ready =>
    simp only [serve] at h
    split at h
    · cases h
      exact .of_cells rfl rfl rfl inert_nil
    · cases h

theorem affects_enter (u : WorkUnit S.Rule) (hlog : log.Inert) :
    Affects m log w e (e.enter m w u).1 (e.enter m w u).2 := by
  unfold enter
  dsimp only
  split
  · split
    · exact .of_cells rfl rfl rfl hlog
    · exact .note (.of_table (fun s => s.setStatus u.id _) (fun _ => ⟨rfl, rfl⟩) rfl hlog)
  · exact .of_cells rfl rfl rfl hlog
  · exact .of_cells rfl rfl rfl hlog
  · exact .of_cells rfl rfl rfl hlog
  · exact .of_cells rfl rfl rfl hlog
  · exact .note (.of_table (fun s => s.claim u.id e.id) (fun _ => ⟨rfl, rfl⟩) rfl hlog)
  · exact .of_cells rfl rfl rfl hlog
  · split
    · exact .of_cells rfl rfl rfl hlog
    · rename_i head hhead
      refine .note (.of_table (fun s =>
        if s.status? head.unit.id = some .running then s.setStatus head.unit.id _ else s)
        (fun s => ?_) rfl hlog)
      split
      · exact ⟨rfl, rfl⟩
      · exact ⟨rfl, rfl⟩
  · exact .of_table (fun s => s.startWaiting e.id u.id) (fun _ => ⟨rfl, rfl⟩) rfl hlog

theorem affects_close (result : Except Error Unit) (hlog : log.Inert) :
    Affects m log w e (e.close w result).1 (e.close w result).2 := by
  unfold close
  dsimp only
  split
  · rename_i f _ _
    split
    · exact .of_cells rfl rfl rfl hlog
    · split
      · obtain ⟨hsize, houtlet⟩ := w.outlet_foldl_softened f.fills e.home
        exact .still rfl hsize houtlet hlog
      · exact .of_cells rfl rfl rfl hlog
  · exact .of_cells rfl rfl rfl hlog

theorem affects_passBarrier {u : WorkUnit S.Rule} {phase : Phase} (hlog : log.Inert)
    (h : e.passBarrier pick w u phase = some (w', e')) : Affects m log w e w' e' := by
  unfold passBarrier at h
  dsimp only at h
  repeat' split at h
  all_goals cases h
  all_goals exact .of_cells rfl rfl rfl hlog

theorem affects_settle {result : Except Error Unit} (hlog : log.Inert)
    (h : e.settle w result = some (w', e')) : Affects m log w e w' e' := by
  unfold settle at h
  split at h
  · rename_i f frames levels _ _
    cases h
    exact .note (.of_table (fun s => s.settle f.unit _) (fun _ => ⟨rfl, rfl⟩) rfl hlog)
  · cases h

theorem affects_answer {outcome : Except Error Attempt} (hlog : log.Inert)
    (h : e.answer w outcome = some (w', e')) : Affects m log w e w' e' := by
  unfold answer at h
  split at h
  · cases h
    exact .of_cells rfl rfl rfl hlog
  · split at h
    · cases h
      exact .of_cells rfl rfl rfl hlog
    · rename_i c resolver next levels _ _ outcome
      have hfinish : Affects m log w e
          (({ e with levels }).finishProbe w c resolver next outcome).1
          (({ e with levels }).finishProbe w c resolver next outcome).2 := by
        unfold finishProbe
        dsimp only
        split
        all_goals exact .of_cells rfl rfl rfl hlog
      exact hfinish.of_some h
  · split at h
    all_goals
      cases h
      exact .of_cells rfl rfl rfl hlog
  · cases h

theorem inert_answering (outcome : Except Error Attempt) (hw : e.writes = [])
    (hf : e.focus = .answer outcome) : (e.occurrences w).Inert := by
  unfold occurrences
  rw [hw, hf]
  cases outcome with
  | error => exact inert_nil
  | ok outcome =>
    dsimp only
    split
    · exact e.inert_finishing w _ outcome
    · exact inert_nil

theorem affects_of_step (hhome : e.home < w.schedulers.size)
    (h : e.step m pick w = some (w', e')) : Affects m (e.occurrences w) w e w' e' := by
  unfold step at h
  split at h
  · rename_i next rest hw
    exact (affects_write next rest hw).of_some h
  · rename_i hw
    split at h
    · rename_i a hf
      cases h
      simp only [occurrences, hw, hf]
      exact .of_cells rfl rfl rfl inert_nil
    · rename_i r next hf
      simp only [occurrences, hw, hf]
      exact affects_serve hhome h
    · rename_i result hf
      have hlog : (e.occurrences w).Inert := by
        unfold occurrences
        rw [hw, hf]
        cases result with
        | ok => exact e.inert_closing w
        | error => exact inert_nil
      exact (affects_close result hlog).of_some h
    · rename_i r next hf
      simp only [occurrences, hw, hf]
      exact affects_serve hhome h
    · rename_i u hf
      simp only [occurrences, hw, hf]
      exact (affects_enter u (e.inert_entering (w.scheduler e.home) u)).of_some h
    · rename_i u hf
      simp only [occurrences, hw, hf]
      split at h
      · cases h
      · -- First the evaluator stops waiting, and then it enters the unit.
        have hstop : Affects m [] w e (w.modifyScheduler e.home fun s => s.stopWaiting e.id) e :=
          .of_table (fun s => s.stopWaiting e.id) (fun _ => ⟨rfl, rfl⟩) rfl inert_nil
        have hlog := e.inert_entering ((w.scheduler e.home).stopWaiting e.id) u
        exact (hstop.trans (affects_enter u hlog)).of_some h
    · rename_i u phase hf
      simp only [occurrences, hw, hf]
      exact affects_passBarrier inert_nil h
    · rename_i result hf
      simp only [occurrences, hw, hf]
      refine affects_settle ?_ h
      cases e.frames with
      | nil => exact inert_nil
      | cons => exact inert_singleton fun _ _ => rfl
    · rename_i outcome hf
      exact affects_answer (inert_answering outcome hw hf) h
    · cases h
    · cases h

end Evaluator

theorem Traces.affects {m : Model S} {log log' : History S} {w w' : World S}
    {e e' : Evaluator S α} (h : Traces m log w e log' w' e')
    (hhome : e.home < w.schedulers.size) :
    ∃ new, log' = log ++ new ∧ e.Affects m new w w' e' := by
  induction h with
  | refl => exact ⟨[], (List.append_nil _).symm, rfl, rfl, rfl⟩
  | step pick hstep _ ih =>
    have hfirst := Evaluator.affects_of_step hhome hstep
    obtain ⟨new, rfl, hnew⟩ := ih (by rw [hfirst.home, hfirst.size]; exact hhome)
    exact ⟨_, List.append_assoc _ _ _, hfirst.trans hnew⟩

end Attribution.Engine
