import Attribution.Proofs.Engine.Solo
import Attribution.Proofs.Engine.Team
/-!
# Levels and waits

How an evaluator's levels, its stack and the list of waits go together: a body runs right
above the level of its unit, the caller's code runs with nothing below it, there is a frame
for every unit that is running, an evaluator that is blocked is listed with the unit it
waits for, and what stops at the barrier is a unit of that phase (`Evaluator.Composed`).

* `Evaluator.Composed.step` says that a step keeps this, and that it lists or strikes
  nobody else;
* `Team.Reach.composed` says that it holds at every point of every run.
-/

namespace Attribution.Engine

variable {S : Schema} {α : Type}

/-! ## The list of waits -/

namespace Scheduler

variable {ρ : Type} (s : Scheduler ρ)

theorem awaited?_stopWaiting {self j : EvaluatorId} (h : j ≠ self) :
    (s.stopWaiting self).awaited? j = s.awaited? j := by
  unfold awaited? stopWaiting
  dsimp only
  induction s.waiting with
  | nil => rfl
  | cons x rest ih =>
    obtain ⟨d, id⟩ := x
    rw [List.filter_cons, List.lookup_cons]
    by_cases hd : d = self
    · have hj : (j == d) = false := by
        rw [hd]
        exact beq_false_of_ne h
      rw [if_neg (by simp [hd]), ih, hj]
    · rw [if_pos (by simp [hd]), List.lookup_cons, ih]

theorem awaited?_startWaiting {self j : EvaluatorId} (h : j ≠ self) (id : UnitId) :
    (s.startWaiting self id).awaited? j = s.awaited? j := by
  have hj : (j == self) = false := beq_false_of_ne h
  rw [← s.awaited?_stopWaiting h]
  unfold awaited? startWaiting stopWaiting
  rw [List.lookup_cons, hj]

theorem awaited?_startWaiting_self (self : EvaluatorId) (id : UnitId) :
    (s.startWaiting self id).awaited? self = some id := by
  unfold awaited? startWaiting
  rw [List.lookup_cons, beq_self_eq_true]

end Scheduler

namespace World

def SameWaits (home : SchedulerId) (w w' : World S) : Prop :=
  (w'.scheduler home).waiting = (w.scheduler home).waiting

variable {home : SchedulerId}

theorem SameWaits.awaited? {w w' : World S} (h : w.SameWaits home w') (j : EvaluatorId) :
    (w'.scheduler home).awaited? j = (w.scheduler home).awaited? j := by
  rw [Scheduler.awaited?, Scheduler.awaited?, h]

theorem SameWaits.trans {u v w : World S} (h : u.SameWaits home v) (h' : v.SameWaits home w) :
    u.SameWaits home w :=
  Eq.trans h' h

theorem sameWaits_modifyScheduler (w : World S) (i : SchedulerId)
    {f : Scheduler S.Rule → Scheduler S.Rule} (hf : ∀ s, (f s).waiting = s.waiting) :
    w.SameWaits home (w.modifyScheduler i f) := by
  rw [SameWaits, scheduler_modifyScheduler]
  split
  · exact hf _
  · rfl

theorem sameWaits_report (m : Model S) (w : World S) (origin : Option Nat) (i : SchedulerId)
    (d : Diagnostic) : w.SameWaits home (w.report m origin i d) := by
  unfold report
  dsimp only
  split
  · exact sameWaits_modifyScheduler _ i fun _ => rfl
  · rfl

theorem sameWaits_reset (w : World S) (origin : Option Nat) (c : S.Key) :
    w.SameWaits home (w.reset origin c) := by
  by_cases h : ∃ u, (w.cell c).resolver = some u ∧ (w.unitStatus? u).any Status.isTerminal = true
  · obtain ⟨u, hu, ht⟩ := h
    rw [w.reset_eq_of_settled origin hu ht]
    exact sameWaits_modifyScheduler (w.setValue c .unset) u.home fun _ => rfl
  · rw [w.reset_eq_of_unsettled origin c fun u hu =>
      Bool.eq_false_iff.2 fun ht => h ⟨u, hu, ht⟩]
    rfl

theorem sameWaits_foldl_softened (w : World S) (cells : List S.Key) :
    w.SameWaits home (cells.foldl (fun w c =>
      w.modifyCell c fun cell => { cell with value := cell.value.softened }) w) := by
  induction cells generalizing w with
  | nil => rfl
  | cons c rest ih =>
    rw [List.foldl_cons]
    exact SameWaits.trans rfl (ih _)

end World

/-! ## Code and levels -/

def Level.isRunning : Level S α → Bool
  | .running => true
  | _ => false

/-- Code may run above these levels. -/
def Code.Fits : Code S α → List (Level S α) → Prop
  | .top _, levels => levels = []
  | .body _, levels => ∃ rest, levels = .running :: rest

/-- Whatever comes back finds code that may run. -/
def Level.Stacked : List (Level S α) → Prop
  | [] => True
  | .running :: rest => Stacked rest
  | .attempted next :: rest => (∀ x, (next x).Fits rest) ∧ Stacked rest
  | .probed _ _ next :: rest => (∀ x, (next x).Fits rest) ∧ Stacked rest
  | .helping u phase _ _ :: rest => u.phase = some phase ∧ Stacked rest

/-- What is done next goes with the levels below it and with the list of waits. -/
def Focus.Suits (s : Scheduler S.Rule) (self : EvaluatorId) (levels : List (Level S α)) :
    Focus S α → Prop
  | .act code => code.Fits levels
  | .blocked u => s.awaited? self = some u.id
  | .barrier u phase => u.phase = some phase
  | .done _ => levels = []
  | _ => True

namespace Evaluator

structure Composed (s : Scheduler S.Rule) (e : Evaluator S α) : Prop where
  focus : e.focus.Suits s e.id e.levels
  levels : Level.Stacked e.levels
  frames : e.frames.length = e.levels.countP Level.isRunning

/-- A step after which the evaluator is composed, and which touches no other's wait. -/
structure Advances (w : World S) (e : Evaluator S α) (w' : World S) (e' : Evaluator S α) :
    Prop where
  composed : e'.Composed (w'.scheduler e.home)
  others : ∀ j, j ≠ e.id → (w'.scheduler e.home).awaited? j = (w.scheduler e.home).awaited? j

variable {m : Model S} {w w' : World S} {e e' : Evaluator S α} {s : Scheduler S.Rule}

theorem Composed.frames_eq_nil (h : e.Composed s) {a : α} (hf : e.focus = .done a) :
    e.frames = [] := by
  have hlevels := h.focus
  rw [hf] at hlevels
  have hframes := h.frames
  rw [show e.levels = [] from hlevels] at hframes
  exact List.length_eq_zero_iff.1 hframes

theorem Advances.of_focus (h : e.Composed s) (hw : w.SameWaits e.home w')
    (hframes : e'.frames.length = e.frames.length) (hlevels : e'.levels = e.levels)
    (hfocus : e'.focus.Suits (w'.scheduler e.home) e'.id e.levels) : Advances w e w' e' := by
  refine ⟨⟨?_, ?_, ?_⟩, fun j _ => hw.awaited? j⟩
  · rw [hlevels]
    exact hfocus
  · rw [hlevels]
    exact h.levels
  · rw [hframes, hlevels]
    exact h.frames

theorem Advances.of_push (h : e.Composed s) (hw : w.SameWaits e.home w') {level : Level S α}
    (hframes : e'.frames = e.frames) (hlevels : e'.levels = level :: e.levels)
    (hlevel : Level.Stacked (level :: e.levels)) (hrun : level.isRunning = false)
    (hfocus : e'.focus.Suits (w'.scheduler e.home) e'.id (level :: e.levels)) :
    Advances w e w' e' := by
  refine ⟨⟨?_, ?_, ?_⟩, fun j _ => hw.awaited? j⟩
  · rw [hlevels]
    exact hfocus
  · rw [hlevels]
    exact hlevel
  · rw [hframes, hlevels, List.countP_cons_of_neg (by simp [hrun])]
    exact h.frames

theorem Advances.of_pop (h : e.Composed s) (hw : w.SameWaits e.home w') {level : Level S α}
    {rest : List (Level S α)} (hl : e.levels = level :: rest) (hrest : Level.Stacked rest)
    (hrun : level.isRunning = false) (hframes : e'.frames = e.frames) (hlevels : e'.levels = rest)
    (hfocus : e'.focus.Suits (w'.scheduler e.home) e'.id rest) : Advances w e w' e' := by
  refine ⟨⟨?_, ?_, ?_⟩, fun j _ => hw.awaited? j⟩
  · rw [hlevels]
    exact hfocus
  · rw [hlevels]
    exact hrest
  · have hold := h.frames
    rw [hl, List.countP_cons_of_neg (by simp [hrun])] at hold
    rw [hframes, hlevels]
    exact hold

theorem advances_write (h : e.Composed (w.scheduler e.home)) (next : Write S)
    (rest : List (Write S)) :
    Advances w e (e.write m w next rest).1 (e.write m w next rest).2 := by
  cases next with
  | force c v => exact .of_focus h rfl rfl rfl h.focus
  | notify c hook v => exact .of_focus h rfl rfl rfl h.focus

theorem advances_fail (h : e.Composed s) {code : Code S α} (hcode : code.Fits e.levels)
    (d : Diagnostic) :
    Advances w e ((e.resume code).fail m w d).1 ((e.resume code).fail m w d).2 := by
  unfold fail
  dsimp only [resume]
  split
  · exact .of_focus h (World.sameWaits_report _ _ _ _ _) rfl rfl hcode
  · rename_i f rest hf
    split
    · exact .of_focus h rfl rfl rfl hcode
    · have hdoom : w.SameWaits e.home (w.modifyScheduler e.home fun s =>
          s.setStatus f.unit.id .runningWillFail) := w.sameWaits_modifyScheduler _ fun _ => rfl
      exact .of_focus h (hdoom.trans (World.sameWaits_report _ _ _ _ _)) (by rw [hf]; rfl) rfl hcode

theorem advances_fill (h : e.Composed s) {code : Code S α} (hcode : code.Fits e.levels)
    (c : S.Key) (v : S.Val c) :
    Advances w e ((e.resume code).fill w c v).1 ((e.resume code).fill w c v).2 := by
  unfold fill
  dsimp only [resume]
  split
  · exact .of_focus h rfl rfl rfl hcode
  · rename_i f rest hf
    split
    · exact .of_focus h rfl (by rw [hf]; rfl) rfl hcode
    · exact .of_focus h rfl (by rw [hf]; rfl) rfl hcode

theorem advances_startProbe (h : e.Composed s) {c : S.Key}
    {next : Except Error (Probe (S.Val c)) → Code S α} (hnext : ∀ x, (next x).Fits e.levels) :
    Advances w e w (e.startProbe w c next) := by
  unfold startProbe
  dsimp only
  split
  · exact .of_focus h rfl rfl rfl (hnext _)
  · exact .of_push h rfl rfl rfl ⟨hnext, h.levels⟩ rfl trivial
  · exact .of_focus h rfl rfl rfl (hnext _)
  · exact .of_focus h rfl rfl rfl (hnext _)

theorem advances_serve (h : e.Composed s) {r : Request S} {next : r.Answer → Code S α}
    (hnext : ∀ x, (next x).Fits e.levels) (hserve : e.serve m w r next = some (w', e')) :
    Advances w e w' e' := by
  cases r with
  | env | look | resolveWith | addHook | force | soften | note =>
    cases hserve
    exact .of_focus h rfl rfl rfl (hnext _)
  | register label phase rule =>
    cases hserve
    exact .of_focus h (w.sameWaits_modifyScheduler _ fun _ => rfl) rfl rfl (hnext _)
  | attempt u =>
    cases hserve
    exact .of_push h rfl rfl rfl ⟨hnext, h.levels⟩ rfl trivial
  | probe c =>
    cases hserve
    exact advances_startProbe h hnext
  | fill c v =>
    have hfill := advances_fill (w := w) h (hnext ()) c v
    rw [Option.some.inj hserve] at hfill
    exact hfill
  | reset c =>
    cases hserve
    exact .of_focus h (w.sameWaits_reset _ _) rfl rfl (hnext _)
  | fail d =>
    have hfail := advances_fail (m := m) (w := w) h (hnext ()) d
    rw [Option.some.inj hserve] at hfail
    exact hfail
  | report d =>
    cases hserve
    exact .of_focus h (World.sameWaits_report _ _ _ _ _) rfl rfl (hnext _)
  | await ready =>
    simp only [serve] at hserve
    split at hserve
    · cases hserve
      exact .of_focus h rfl rfl rfl (hnext _)
    · cases hserve
  | crash =>
    cases hserve
    exact .of_focus h rfl rfl rfl trivial

theorem length_joinCycleAbove (index : Nat) (frames : List (Frame S)) :
    (Frame.joinCycleAbove index frames).length = frames.length := by
  have h := congrArg List.length (Frame.units_joinCycleAbove index frames)
  rwa [List.length_map, List.length_map] at h

theorem phase_of_behind {u : WorkUnit S.Rule} {phase : Phase}
    (h : e.admission s u = .behind phase) : u.phase = some phase := by
  unfold admission at h
  repeat' split at h
  all_goals try cases h
  rename_i hp
  exact (Option.filter_eq_some_iff.1 hp).1

theorem advances_enter (h : e.Composed s) (hhome : e.home < w.schedulers.size)
    (u : WorkUnit S.Rule) : Advances w e (e.enter m w u).1 (e.enter m w u).2 := by
  have hmodify (f : Scheduler S.Rule → Scheduler S.Rule) (hf : ∀ s, (f s).waiting = s.waiting) :
      w.SameWaits e.home (w.modifyScheduler e.home f) := w.sameWaits_modifyScheduler _ hf
  unfold enter
  dsimp only
  cases hadm : e.admission (w.scheduler e.home) u with
  | reentered index =>
    dsimp only
    split
    · exact .of_focus h rfl rfl rfl trivial
    · exact .of_focus h (hmodify _ fun _ => rfl) (length_joinCycleAbove _ _) rfl trivial
  | unknown | settled | tooDeep => exact .of_focus h rfl rfl rfl trivial
  | behind phase => exact .of_focus h rfl rfl rfl (phase_of_behind hadm)
  | granted =>
    dsimp only
    have hclaim := hmodify (fun s => s.claim u.id e.id) fun _ => rfl
    refine ⟨⟨⟨_, rfl⟩, h.levels, ?_⟩, fun j _ => hclaim.awaited? j⟩
    rw [List.countP_cons_of_pos rfl, List.length_cons, h.frames]
  | crossed status index =>
    cases status with
    | runningWillFail => exact .of_focus h rfl rfl rfl trivial
    | _ =>
      dsimp only
      split
      · exact .of_focus h rfl rfl rfl trivial
      · refine .of_focus h (hmodify _ fun s => ?_) (length_joinCycleAbove _ _) rfl trivial
        split
        · rfl
        · rfl
  | busy =>
    refine ⟨⟨?_, h.levels, h.frames⟩, fun j hj => ?_⟩
    · rw [World.scheduler_modifyScheduler_self _ hhome]
      exact Scheduler.awaited?_startWaiting_self _ _ _
    · rw [World.scheduler_modifyScheduler_self _ hhome]
      exact Scheduler.awaited?_startWaiting _ hj _

theorem advances_passBarrier (h : e.Composed s) {pick : Nat} {u : WorkUnit S.Rule}
    {phase : Phase} (hu : u.phase = some phase)
    (hpass : e.passBarrier pick w u phase = some (w', e')) : Advances w e w' e' := by
  unfold passBarrier at hpass
  dsimp only at hpass
  split at hpass
  · cases hpass
    exact .of_focus h rfl rfl rfl trivial
  · split at hpass
    · cases hpass
      exact .of_focus h rfl rfl rfl trivial
    · split at hpass
      · cases hpass
        exact .of_push h rfl rfl rfl ⟨hu, h.levels⟩ rfl trivial
      · cases hpass

theorem advances_close (h : e.Composed s) (result : Except Error Unit) :
    Advances w e (e.close w result).1 (e.close w result).2 := by
  unfold close
  dsimp only
  split
  · split
    · exact .of_focus h rfl rfl rfl trivial
    · split
      · exact .of_focus h (w.sameWaits_foldl_softened _) rfl rfl trivial
      · exact .of_focus h rfl rfl rfl trivial
  · exact .of_focus h rfl rfl rfl trivial

theorem advances_settle (h : e.Composed s) {result : Except Error Unit}
    (hsettle : e.settle w result = some (w', e')) : Advances w e w' e' := by
  unfold settle at hsettle
  split at hsettle
  · rename_i f frames levels hf hl
    cases hsettle
    have hwaits : w.SameWaits e.home (w.modifyScheduler e.home fun s =>
        s.settle f.unit (f.outcome result).1) := w.sameWaits_modifyScheduler _ fun _ => rfl
    refine ⟨⟨trivial, ?_, ?_⟩, fun j _ => hwaits.awaited? j⟩
    · have hold := h.levels
      rw [hl] at hold
      exact hold
    · have hold := h.frames
      rw [hf, hl, List.countP_cons_of_pos rfl, List.length_cons] at hold
      exact Nat.succ.inj hold
  · cases hsettle

theorem advances_finishProbe (h : e.Composed s) {c : S.Key} {resolver : String}
    {next : Except Error (Probe (S.Val c)) → Code S α} {levels : List (Level S α)}
    (hl : e.levels = .probed c resolver next :: levels) (outcome : Attempt) :
    Advances w e (({ e with levels }).finishProbe w c resolver next outcome).1
      (({ e with levels }).finishProbe w c resolver next outcome).2 := by
  have hstack := h.levels
  rw [hl] at hstack
  unfold finishProbe
  dsimp only [resume]
  split
  all_goals exact .of_pop h rfl hl hstack.2 rfl rfl rfl (hstack.1 _)

theorem advances_answer (h : e.Composed s) {outcome : Except Error Attempt}
    (hanswer : e.answer w outcome = some (w', e')) : Advances w e w' e' := by
  have hstack := h.levels
  unfold answer at hanswer
  split at hanswer
  · rename_i next levels hl
    cases hanswer
    rw [hl] at hstack
    exact .of_pop h rfl hl hstack.2 rfl rfl rfl (hstack.1 _)
  · rename_i c resolver next levels hl
    split at hanswer
    · cases hanswer
      rw [hl] at hstack
      exact .of_pop h rfl hl hstack.2 rfl rfl rfl (hstack.1 _)
    · rename_i outcome
      have hfinish := advances_finishProbe (w := w) h hl outcome
      rw [Option.some.inj hanswer] at hfinish
      exact hfinish
  · rename_i u phase b earlier levels hl
    rw [hl] at hstack
    split at hanswer
    · cases hanswer
      exact .of_pop h rfl hl hstack.2 rfl rfl rfl trivial
    · cases hanswer
      exact .of_pop h rfl hl hstack.2 rfl rfl rfl hstack.1
    · cases hanswer
      exact .of_pop h rfl hl hstack.2 rfl rfl rfl hstack.1
    · cases hanswer
      exact .of_pop h rfl hl hstack.2 rfl rfl rfl trivial
  · cases hanswer

theorem Composed.step (h : e.Composed (w.scheduler e.home)) (hhome : e.home < w.schedulers.size)
    {pick : Nat} (hstep : e.step m pick w = some (w', e')) : Advances w e w' e' := by
  have hfocus := h.focus
  unfold Evaluator.step at hstep
  split at hstep
  · rename_i next rest hw
    have hwrite := advances_write (m := m) h next rest
    rw [Option.some.inj hstep] at hwrite
    exact hwrite
  · split at hstep
    · rename_i a hf
      rw [hf] at hfocus
      cases hstep
      exact .of_focus h rfl rfl rfl hfocus
    · rename_i r next hf
      rw [hf] at hfocus
      refine advances_serve h ?_ hstep
      exact fun _ => hfocus
    · rename_i result hf
      have hclose := advances_close (w := w) h result
      rw [Option.some.inj hstep] at hclose
      exact hclose
    · rename_i r next hf
      rw [hf] at hfocus
      refine advances_serve h ?_ hstep
      exact fun _ => hfocus
    · rename_i u hf
      have henter := advances_enter (m := m) h hhome u
      rw [Option.some.inj hstep] at henter
      exact henter
    · rename_i u hf
      have henter := advances_enter (m := m) (w := w.modifyScheduler e.home fun s =>
        s.stopWaiting e.id) h (by rw [World.size_modifyScheduler]; exact hhome) u
      split at hstep
      · cases hstep
      · rw [Option.some.inj hstep] at henter
        refine ⟨henter.composed, fun j hj => ?_⟩
        rw [henter.others j hj, World.scheduler_modifyScheduler_self _ hhome]
        exact Scheduler.awaited?_stopWaiting _ hj
    · rename_i u phase hf
      rw [hf] at hfocus
      exact advances_passBarrier h hfocus hstep
    · exact advances_settle h hstep
    · exact advances_answer h hstep
    · cases hstep
    · cases hstep

end Evaluator

namespace Team

variable {m : Model S} {home : SchedulerId} {issued : List (WorkUnit S.Rule)}

theorem composed_of_awaited? {s s' : Scheduler S.Rule} {e : Evaluator S α} (h : e.Composed s)
    (hs : s'.awaited? e.id = s.awaited? e.id) : e.Composed s' := by
  refine ⟨?_, h.levels, h.frames⟩
  have hfocus := h.focus
  cases hf : e.focus with
  | blocked u =>
    rw [hf] at hfocus
    exact hs.trans hfocus
  | _ =>
    rw [hf] at hfocus
    exact hfocus

theorem Reach.composed {x : Team S α} (h : Reach m home x issued) :
    ∀ e ∈ x.members, e.Composed (x.world.scheduler home) := by
  induction h with
  | start w h => exact fun e he => by cases he
  | @turn x y issued new hx hturn ih =>
    have horder := hx.orderly
    cases hturn with
    | hire _ worker a =>
      intro e he
      rcases List.mem_append.1 he with he | he
      · exact ih e he
      · rw [List.mem_singleton.1 he]
        exact ⟨rfl, trivial, rfl⟩
    | resume w before after e b a hw hf =>
      intro d hd
      have hold := ih e (by simp)
      have hlevels := hold.focus
      rw [hf] at hlevels
      rcases List.mem_append.1 hd with hd | hd
      · exact ih d (List.mem_append_left _ hd)
      · rcases List.mem_cons.1 hd with rfl | hd
        · exact ⟨hlevels, hold.levels, hold.frames⟩
        · exact ih d (List.mem_append_right _ (List.mem_cons_of_mem _ hd))
    | step w w' before after e e' pick elsewhere hasks hstep =>
      have he : e ∈ before ++ e :: after := by simp
      have hhome := horder.at_home e he
      have hadvance := Evaluator.Composed.step (w := { w with elsewhere }) (by
        rw [hhome]
        exact ih e he) (by
        rw [hhome]
        exact horder.exists_home) hstep
      obtain ⟨hcomposed, hothers⟩ := hadvance
      rw [hhome] at hcomposed hothers
      -- Members have different numbers, so the others are listed as before.
      have hids : (e.id :: (before ++ after).map Evaluator.id).Nodup :=
        (List.perm_middle.map Evaluator.id).nodup_iff.1 horder.ids
      have hrest : ∀ d ∈ before ++ after, d.Composed (w'.scheduler home) := by
        intro d hd
        have hne : d.id ≠ e.id := fun heq =>
          (List.nodup_cons.1 hids).1 (heq ▸ List.mem_map_of_mem hd)
        have hmem : d ∈ before ++ e :: after := by
          rcases List.mem_append.1 hd with hd | hd
          · exact List.mem_append_left _ hd
          · exact List.mem_append_right _ (List.mem_cons_of_mem _ hd)
        exact composed_of_awaited? (ih d hmem) (hothers d.id hne)
      intro d hd
      rcases List.mem_append.1 hd with hd | hd
      · exact hrest d (List.mem_append_left _ hd)
      · rcases List.mem_cons.1 hd with rfl | hd
        · exact hcomposed
        · exact hrest d (List.mem_append_right _ hd)

end Team

end Attribution.Engine
