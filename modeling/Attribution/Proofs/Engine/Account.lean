import Attribution.Proofs.Engine.Team
/-!
# Accounts

A run of a team of evaluators, with the list of the steps that were taken. An
entry of the list shows the world and the evaluator on both sides of a step, so
whatever is asked about a run (who failed, what was filled, what was written)
can be read off the account of it.

`Shift` says what a step that ends no run of a unit does to the stack, and which
request it comes from (`Evaluator.shift_of_step`).
-/

namespace Attribution.Engine

variable {S : Schema} {α : Type}

structure Deed (S : Schema) (α : Type) where
  before : World S
  actor : Evaluator S α
  after : World S
  result : Evaluator S α

namespace Team

/-- The runs of a team, as `Reach` has them, with the steps that were taken, latest
first. -/
inductive Account (m : Model S) (home : SchedulerId) :
    Team S α → List (WorkUnit S.Rule) → List (Deed S α) → Prop where
  | start (w : World S) (h : Fresh home w) : Account m home ⟨w, []⟩ [] []
  | hire {x : Team S α} {issued : List (WorkUnit S.Rule)} {log : List (Deed S α)}
    (hx : Account m home x issued log) (worker : Option Nat) (a : Action S α) :
    Account m home ⟨(x.world.evaluator home worker (.act (.top a))).1,
      x.members ++ [(x.world.evaluator home worker (.act (.top a))).2]⟩ issued log
  | resume {w : World S} {before after : List (Evaluator S α)} {e : Evaluator S α}
    {issued : List (WorkUnit S.Rule)} {log : List (Deed S α)}
    (hx : Account m home ⟨w, before ++ e :: after⟩ issued log) (b : α) (a : Action S α)
    (hw : e.writes = []) (hf : e.focus = .done b) :
    Account m home ⟨w, before ++ e.resume (.top a) :: after⟩ issued log
  | step {w w' : World S} {before after : List (Evaluator S α)} {e e' : Evaluator S α}
    {issued : List (WorkUnit S.Rule)} {log : List (Deed S α)}
    (hx : Account m home ⟨w, before ++ e :: after⟩ issued log) (pick : Nat)
    (elsewhere : S.Key → Bool) (hasks : ∀ u, e.Asks u → u ∈ issued)
    (h : e.step m pick { w with elsewhere } = some (w', e')) :
    Account m home ⟨w', before ++ e' :: after⟩ (issued ++ e.registers w)
      (⟨{ w with elsewhere }, e, w', e'⟩ :: log)

theorem Account.reach {m : Model S} {home : SchedulerId} {x : Team S α}
    {issued : List (WorkUnit S.Rule)} {log : List (Deed S α)} (h : Account m home x issued log) :
    Reach m home x issued := by
  induction h with
  | start w h => exact .start w h
  | @hire x issued log hx worker a ih =>
    rw [← List.append_nil issued]
    exact ih.turn (.hire x worker a)
  | @resume w before after e issued log hx b a hw hf ih =>
    rw [← List.append_nil issued]
    exact ih.turn (.resume w before after e b a hw hf)
  | @step w w' before after e e' issued log hx pick elsewhere hasks hstep ih =>
    exact ih.turn (.step w w' before after e e' pick elsewhere hasks hstep)

theorem Account.step_of_mem {m : Model S} {home : SchedulerId} {x : Team S α}
    {issued : List (WorkUnit S.Rule)} {log : List (Deed S α)} (h : Account m home x issued log)
    {t : Deed S α} (ht : t ∈ log) :
    ∃ pick, t.actor.step m pick t.before = some (t.after, t.result) := by
  induction h with
  | start => exact absurd ht List.not_mem_nil
  | hire _ _ _ ih | resume _ _ _ _ _ ih => exact ih ht
  | step _ pick elsewhere _ hstep ih =>
    rcases List.mem_cons.1 ht with rfl | ht
    · exact ⟨pick, hstep⟩
    · exact ih ht

theorem Account.home_of_mem {m : Model S} {home : SchedulerId} {x : Team S α}
    {issued : List (WorkUnit S.Rule)} {log : List (Deed S α)} (h : Account m home x issued log)
    {t : Deed S α} (ht : t ∈ log) :
    t.actor.home = home ∧ home < t.before.schedulers.size := by
  induction h with
  | start => exact absurd ht List.not_mem_nil
  | hire _ _ _ ih | resume _ _ _ _ _ ih => exact ih ht
  | @step w w' before after e e' issued log hx pick elsewhere hasks hstep ih =>
    rcases List.mem_cons.1 ht with rfl | ht
    · have ho := hx.reach.orderly
      exact ⟨ho.at_home e (by simp), ho.exists_home⟩
    · exact ih ht

theorem Account.alone {m : Model S} {home : SchedulerId} {w w' : World S} {e e' : Evaluator S α}
    {issued : List (WorkUnit S.Rule)} {log : List (Deed S α)}
    (hx : Account m home ⟨w, [e]⟩ issued log) (hasks : ∀ u, e.Asks u → u ∈ issued)
    (h : e.step m 0 w = some (w', e')) :
    Account m home ⟨w', [e']⟩ (issued ++ e.registers w) (⟨w, e, w', e'⟩ :: log) :=
  .step (show Account m home ⟨w, [] ++ e :: []⟩ issued log from hx) 0 w.elsewhere hasks h

theorem Account.asking {m : Model S} {home : SchedulerId} {w w' : World S} {e e' : Evaluator S α}
    {issued : List (WorkUnit S.Rule)} {log : List (Deed S α)}
    (hx : Account m home ⟨w, [e]⟩ issued log) {v : WorkUnit S.Rule}
    (hr : e.request? = some (.attempt v)) (hv : v ∈ issued)
    (h : e.step m 0 w = some (w', e')) :
    Account m home ⟨w', [e']⟩ issued (⟨w, e, w', e'⟩ :: log) := by
  have hregisters : e.registers w = [] := by simp [Evaluator.registers, hr]
  rw [← List.append_nil issued, ← hregisters]
  refine hx.alone (fun u hu => ?_) h
  rcases hu with hu | ⟨c, hu⟩
  · obtain rfl := Request.attempt.inj (Option.some.inj (hr.symm.trans hu))
    exact hv
  · cases hr.symm.trans hu

theorem Reach.exists_account {m : Model S} {home : SchedulerId} {x : Team S α}
    {issued : List (WorkUnit S.Rule)} (h : Reach m home x issued) :
    ∃ log, Account m home x issued log := by
  induction h with
  | start w h => exact ⟨[], .start w h⟩
  | turn hx hturn ih =>
    obtain ⟨log, hlog⟩ := ih
    cases hturn with
    | hire _ worker a =>
      rw [List.append_nil]
      exact ⟨log, hlog.hire worker a⟩
    | resume w before after e b a hw hf =>
      rw [List.append_nil]
      exact ⟨log, hlog.resume b a hw hf⟩
    | step w w' before after e e' pick elsewhere hasks hstep =>
      exact ⟨_, hlog.step pick elsewhere hasks hstep⟩

end Team

/-! ## What a step does to the stack -/

/-- What a step that ends no run does to the stack, and why. -/
inductive Restack (e : Evaluator S α) : List (Frame S) → Prop where
  | same : Restack e e.frames
  | fill {f : Frame S} {rest : List (Frame S)} (c : S.Key) (v : S.Val c)
    (hr : e.request? = some (.fill c v)) (hf : e.frames = f :: rest) :
    Restack e ({ f with fills := f.fills ++ [c] } :: rest)
  | doom {f : Frame S} {rest : List (Frame S)} (d : Diagnostic)
    (hr : e.request? = some (.fail d)) (hf : e.frames = f :: rest) :
    Restack e ({ f with doomed := true } :: rest)
  | claim (u : WorkUnit S.Rule) : Restack e ({ unit := u } :: e.frames)
  | join (index : Nat) : Restack e (Frame.joinCycleAbove index e.frames)

/-- A step that ends no run. The run on top of the stack is about to end only if its body
has come to its end. -/
structure Shift (e e' : Evaluator S α) : Prop where
  frames : Restack e e'.frames
  focus : ∀ result, e'.focus = .closing result →
    e.focus = .closing result ∨ e.focus = .act (.body (.pure result))

namespace Evaluator

variable {m : Model S} {pick : Nat} {w w' : World S} {e e' : Evaluator S α}

theorem serve_of_step (h : e.step m pick w = some (w', e')) {r : Request S}
    (hr : e.request? = some r) :
    ∃ next : r.Answer → Code S α, e.serve m w r next = some (w', e') := by
  unfold request? at hr
  split at hr
  · rename_i r next hw hfocus
    cases hr
    rw [step, hw] at h
    simp only [hfocus] at h
    exact ⟨_, h⟩
  · rename_i r next hw hfocus
    cases hr
    rw [step, hw] at h
    simp only [hfocus] at h
    exact ⟨_, h⟩
  · cases hr

theorem shift_fill (code : Code S α) (w : World S) {c : S.Key} {v : S.Val c}
    (hr : e.request? = some (.fill c v)) : Shift e ((e.resume code).fill w c v).2 := by
  unfold fill
  dsimp only [resume]
  split
  · exact ⟨.same, nofun⟩
  · rename_i f rest hf
    split
    all_goals exact ⟨.fill c v hr hf, nofun⟩

theorem shift_fail (code : Code S α) (w : World S) {d : Diagnostic}
    (hr : e.request? = some (.fail d)) : Shift e ((e.resume code).fail m w d).2 := by
  unfold fail
  dsimp only [resume]
  split
  · exact ⟨.same, nofun⟩
  · rename_i f rest hf
    split
    · exact ⟨.same, nofun⟩
    · exact ⟨.doom d hr hf, nofun⟩

theorem shift_serve {r : Request S} {next : r.Answer → Code S α} (hr : e.request? = some r)
    (h : e.serve m w r next = some (w', e')) : Shift e e' := by
  cases r with
  | env | look | register | resolveWith | addHook | attempt | force | soften | reset | report
  | note | crash =>
    cases h
    exact ⟨.same, fun _ hf => by cases hf⟩
  | probe c =>
    cases h
    unfold startProbe
    dsimp only
    split
    all_goals exact ⟨.same, fun _ hf => by cases hf⟩
  | fill c v =>
    rw [show e' = ((e.resume (next ())).fill w c v).2 from by rw [Option.some.inj h]]
    exact shift_fill (next ()) w hr
  | fail d =>
    rw [show e' = ((e.resume (next ())).fail m w d).2 from by rw [Option.some.inj h]]
    exact shift_fail (next ()) w hr
  | await ready =>
    simp only [serve] at h
    split at h
    · cases h
      exact ⟨.same, fun _ hf => by cases hf⟩
    · cases h

theorem shift_enter (w : World S) (u : WorkUnit S.Rule) : Shift e (e.enter m w u).2 := by
  unfold enter
  dsimp only
  cases e.admission (w.scheduler e.home) u with
  | reentered index =>
    dsimp only
    split
    · exact ⟨.same, nofun⟩
    · exact ⟨.join _, nofun⟩
  | unknown | settled | behind | tooDeep | busy => exact ⟨.same, nofun⟩
  | granted => exact ⟨.claim u, nofun⟩
  | crossed status index =>
    cases status with
    | runningWillFail => exact ⟨.same, nofun⟩
    | _ =>
      dsimp only
      split
      · exact ⟨.same, nofun⟩
      · exact ⟨.join _, nofun⟩

theorem shift_passBarrier {u : WorkUnit S.Rule} {phase : Phase}
    (h : e.passBarrier pick w u phase = some (w', e')) : Shift e e' := by
  unfold passBarrier at h
  dsimp only at h
  repeat' split at h
  all_goals
    cases h
    try exact ⟨.same, nofun⟩

theorem shift_close (w : World S) {result : Except Error Unit}
    (hf : e.focus = .act (.body (.pure result))) : Shift e (e.close w result).2 := by
  have hfocus : ∀ other, (Focus.closing result : Focus S α) = .closing other →
      e.focus = .closing other ∨ e.focus = .act (.body (.pure other)) := by
    intro other heq
    cases heq
    exact .inr hf
  unfold close
  dsimp only
  repeat' split
  all_goals exact ⟨.same, hfocus⟩

theorem shift_answer {outcome : Except Error Attempt} (h : e.answer w outcome = some (w', e')) :
    Shift e e' := by
  unfold answer at h
  split at h
  · cases h
    exact ⟨.same, nofun⟩
  · rename_i c resolver next levels hl
    split at h
    · cases h
      exact ⟨.same, nofun⟩
    · rename_i outcome
      rw [show e' = (({ e with levels }).finishProbe w c resolver next outcome).2 from by
        rw [Option.some.inj h]]
      unfold finishProbe
      dsimp only [resume]
      split
      all_goals exact ⟨.same, nofun⟩
  · split at h
    all_goals
      cases h
      exact ⟨.same, nofun⟩
  · cases h

/-- **One step.** A step takes the topmost unit off the stack when its run is over; any
other step keeps every unit on it. -/
theorem shift_of_step (h : e.step m pick w = some (w', e'))
    (hclosing : e.writes = [] → ∀ result, e.focus ≠ .closing result) : Shift e e' := by
  unfold step at h
  split at h
  · rename_i next rest hw
    rw [show e' = (e.write m w next rest).2 from by rw [Option.some.inj h]]
    cases next with
    | force | notify => exact ⟨.same, fun _ hf => .inl hf⟩
  · rename_i hw
    split at h
    · cases h
      exact ⟨.same, nofun⟩
    · rename_i r next hf
      exact shift_serve (by simp [request?, hw, hf]) h
    · rename_i result hf
      rw [show e' = (e.close w result).2 from by rw [Option.some.inj h]]
      exact shift_close w hf
    · rename_i r next hf
      exact shift_serve (by simp [request?, hw, hf]) h
    · rename_i u hf
      rw [show e' = (e.enter m w u).2 from by rw [Option.some.inj h]]
      exact shift_enter w u
    · rename_i u hf
      split at h
      · cases h
      · rw [show e' = _ from (congrArg Prod.snd (Option.some.inj h)).symm]
        have hshift := shift_enter (m := m) (e := e)
          (w.modifyScheduler e.home fun s => s.stopWaiting e.id) u
        exact hshift
    · exact shift_passBarrier h
    · rename_i result hf
      exact absurd hf (hclosing hw result)
    · exact shift_answer h
    · cases h
    · cases h

theorem settle_of_step (h : e.step m pick w = some (w', e')) (hw : e.writes = [])
    {result : Except Error Unit} (hf : e.focus = .closing result) :
    ∃ f, e.frames = f :: e'.frames ∧ w'.cells = w.cells ∧ (∃ outcome, e'.focus = .answer outcome) ∧
      (e.home < w.schedulers.size →
        w'.scheduler e.home = (w.scheduler e.home).settle f.unit (f.outcome result).1) := by
  rw [step, hw] at h
  simp only [hf] at h
  unfold settle at h
  split at h
  · rename_i f frames levels hframes hlevels
    cases h
    exact ⟨f, hframes, rfl, ⟨_, rfl⟩, fun hhome => w.scheduler_modifyScheduler_self hhome _⟩
  · cases h

end Evaluator

end Attribution.Engine
