import Attribution.Proofs.Engine.Ends
import Attribution.Proofs.Engine.Deadlock
/-!
# Room on the stack

A watch can look at a unit before it is put on the stack. If it has seen, whenever a
unit is entered, that nobody else runs the unit and that there is room for it, then
the stack never gets longer than the watch allows (`Leads.within`). Only the run of
one evaluator is looked at here, so it never has to wait for another one.
-/

namespace Attribution.Engine

variable {S : Schema} {α : Type}

/-- Entering a unit neither waits nor makes the stack longer than the limit. -/
structure Evaluator.Fits (limit : Nat) (w : World S) (e : Evaluator S α)
    (u : WorkUnit S.Rule) : Prop where
  free : e.admission (w.scheduler e.home) u ≠ .busy
  room : e.admission (w.scheduler e.home) u = .granted → e.frames.length < limit

/-- Nobody enters a unit that is running, and there is room for every new unit. -/
def Watch.roomy (home : SchedulerId) (limit : Nat) : Watch S where
  reads _ _ _ := True
  enters w frames u := ∃ status, (w.scheduler home).status? u.id = some status ∧
    status.isRunning = false ∧ (status = .new → frames.length < limit)
  leaves _ _ _ := True

/-- The evaluator waits for nobody, and its stack is not longer than the limit. -/
structure Evaluator.Within (home : SchedulerId) (limit : Nat) (e : Evaluator S α) : Prop where
  home : e.home = home
  frames : e.frames.length ≤ limit
  focus : ∀ u, e.focus ≠ .blocked u

namespace Evaluator

variable {m : Model S} {pick limit : Nat} {home : SchedulerId} {w w' : World S}
  {e e' : Evaluator S α}

theorem fits_of_roomy {u : WorkUnit S.Rule}
    (h : (Watch.roomy e.home limit).enters w e.frames u) : e.Fits limit w u := by
  obtain ⟨status, hs, hidle, hnew⟩ := h
  refine ⟨fun hbusy => ?_, fun hgranted => hnew ?_⟩
  · obtain ⟨⟨status', hs', hrun⟩, -⟩ := of_busy hbusy
    rw [hs] at hs'
    cases hs'
    rw [hidle] at hrun
    cases hrun
  · obtain ⟨-, hs', -⟩ := claimable_of_granted hgranted
    exact Option.some.inj (hs.symm.trans hs')

theorem fits_of_stacked {u : WorkUnit S.Rule} {index : Nat}
    (h : Frame.indexOf? u.id e.frames = some index) : e.Fits limit w u := by
  have hadmission : e.admission (w.scheduler e.home) u = .reentered index := by
    rw [admission, h]
  refine ⟨fun hbusy => ?_, fun hgranted => ?_⟩
  · cases hadmission.symm.trans hbusy
  · cases hadmission.symm.trans hgranted

theorem Within.of_frames (h : e.Within home limit) (hhome : e'.home = e.home)
    (hframes : e'.frames = e.frames) (hfocus : ∀ u, e'.focus ≠ .blocked u) :
    e'.Within home limit :=
  ⟨hhome.trans h.home, by rw [hframes]; exact h.frames, hfocus⟩

theorem Within.write (h : e.Within home limit) (next : Write S) (rest : List (Write S)) :
    (e.write m w next rest).2.Within home limit := by
  cases next with
  | force | notify => exact ⟨h.home, h.frames, h.focus⟩

theorem Within.fill (h : e.Within home limit) (c : S.Key) (v : S.Val c) :
    (e.fill w c v).2.Within home limit := by
  unfold Evaluator.fill
  split
  · exact ⟨h.home, h.frames, h.focus⟩
  · rename_i f rest hf
    have hlen : ({ f with fills := f.fills ++ [c] } :: rest).length ≤ limit := by
      have hframes := h.frames
      rwa [hf] at hframes
    dsimp only
    split
    all_goals exact ⟨h.home, hlen, h.focus⟩

theorem Within.fail (h : e.Within home limit) (d : Diagnostic) :
    (e.fail m w d).2.Within home limit := by
  unfold Evaluator.fail
  split
  · exact h
  · rename_i f rest hf
    split
    · exact h
    · have hframes := h.frames
      rw [hf] at hframes
      exact ⟨h.home, hframes, h.focus⟩

theorem Within.serve (h : e.Within home limit) {r : Request S} {next : r.Answer → Code S α}
    (hserve : e.serve m w r next = some (w', e')) : e'.Within home limit := by
  have hresume : ∀ code, (e.resume code).Within home limit := fun code =>
    h.of_frames rfl rfl nofun
  cases r with
  | env | look | register | resolveWith | addHook | attempt | force | soften | reset | report
  | note | crash =>
    cases hserve
    exact h.of_frames rfl rfl nofun
  | probe c =>
    cases hserve
    unfold startProbe
    dsimp only
    split
    all_goals exact h.of_frames rfl rfl nofun
  | fill c v =>
    rw [show e' = ((e.resume (next ())).fill w c v).2 from by rw [Option.some.inj hserve]]
    exact (hresume _).fill c v
  | fail d =>
    rw [show e' = ((e.resume (next ())).fail m w d).2 from by rw [Option.some.inj hserve]]
    exact (hresume _).fail d
  | await ready =>
    simp only [Evaluator.serve] at hserve
    split at hserve
    · cases hserve
      exact hresume _
    · cases hserve

/-- Units are put on the stack where they are entered, and only there. -/
theorem Within.enter (h : e.Within home limit) {u : WorkUnit S.Rule} (hfits : e.Fits limit w u) :
    (e.enter m w u).2.Within home limit := by
  have hjoin : ∀ index (result : Except Error Attempt),
      ({ e with frames := Frame.joinCycleAbove index e.frames }.reply result).Within home limit := by
    intro index result
    refine ⟨h.home, ?_, nofun⟩
    change (Frame.joinCycleAbove index e.frames).length ≤ limit
    rw [length_joinCycleAbove]
    exact h.frames
  have hfree := hfits.free
  have hroom := hfits.room
  unfold Evaluator.enter
  dsimp only
  cases hadmission : e.admission (w.scheduler e.home) u with
  | reentered index =>
    dsimp only
    split
    · exact h.of_frames rfl rfl nofun
    · exact hjoin _ _
  | unknown | settled | behind | tooDeep => exact h.of_frames rfl rfl nofun
  | granted => exact ⟨h.home, hroom hadmission, nofun⟩
  | crossed status index =>
    cases status with
    | runningWillFail => exact h.of_frames rfl rfl nofun
    | _ =>
      dsimp only
      split
      · exact h.of_frames rfl rfl nofun
      · exact hjoin _ _
  | busy => exact absurd hadmission hfree

theorem Within.passBarrier (h : e.Within home limit) {u : WorkUnit S.Rule} {phase : Phase}
    (hpass : e.passBarrier pick w u phase = some (w', e')) : e'.Within home limit := by
  unfold Evaluator.passBarrier at hpass
  dsimp only at hpass
  repeat' split at hpass
  all_goals
    cases hpass
    try exact h.of_frames rfl rfl nofun

theorem Within.close (h : e.Within home limit) (result : Except Error Unit) :
    (e.close w result).2.Within home limit := by
  unfold Evaluator.close
  dsimp only
  repeat' split
  all_goals exact h.of_frames rfl rfl nofun

theorem Within.settle (h : e.Within home limit) {result : Except Error Unit}
    (hsettle : e.settle w result = some (w', e')) : e'.Within home limit := by
  unfold Evaluator.settle at hsettle
  split at hsettle
  · rename_i f frames levels hf _
    have hframes := h.frames
    rw [hf, List.length_cons] at hframes
    cases hsettle
    exact ⟨h.home, Nat.le_of_succ_le hframes, nofun⟩
  · cases hsettle

theorem Within.answer (h : e.Within home limit) {outcome : Except Error Attempt}
    (hanswer : e.answer w outcome = some (w', e')) : e'.Within home limit := by
  unfold Evaluator.answer at hanswer
  split at hanswer
  · cases hanswer
    exact h.of_frames rfl rfl nofun
  · rename_i c resolver next levels _
    split at hanswer
    · cases hanswer
      exact h.of_frames rfl rfl nofun
    · rename_i outcome
      rw [show e' = (({ e with levels }).finishProbe w c resolver next outcome).2 from by
        rw [Option.some.inj hanswer]]
      unfold finishProbe
      dsimp only
      split
      all_goals exact h.of_frames rfl rfl nofun
  · split at hanswer
    all_goals
      cases hanswer
      exact h.of_frames rfl rfl nofun
  · cases hanswer

theorem Within.step (h : e.Within home limit) (hstep : e.step m pick w = some (w', e'))
    (hfits : ∀ u, e.writes = [] → e.focus = .enter u → e.Fits limit w u) :
    e'.Within home limit := by
  unfold Evaluator.step at hstep
  split at hstep
  · rename_i next rest _
    rw [show e' = (e.write m w next rest).2 from by rw [Option.some.inj hstep]]
    exact h.write next rest
  · rename_i hw
    split at hstep
    · cases hstep
      exact h.of_frames rfl rfl nofun
    · exact h.serve hstep
    · rename_i result _
      rw [show e' = (e.close w result).2 from by rw [Option.some.inj hstep]]
      exact h.close result
    · exact h.serve hstep
    · rename_i u hf
      rw [show e' = (e.enter m w u).2 from by rw [Option.some.inj hstep]]
      exact h.enter (hfits u hw hf)
    · rename_i u hf
      exact absurd hf (h.focus u)
    · exact h.passBarrier hstep
    · exact h.settle hstep
    · exact h.answer hstep
    · cases hstep
    · cases hstep

end Evaluator

/-- **The whole run.** If every unit that a run enters fits, the stack stays within the
limit. -/
theorem Leads.within {m : Model S} {home : SchedulerId} {limit : Nat} {w w' : World S}
    {e e' : Evaluator S α} (hl : Leads m w e w' e') (h : e.Within home limit)
    (hfits : ∀ v (d : Evaluator S α) u, Leads m w e v d → d.home = home → d.writes = [] →
      d.focus = .enter u → d.Fits limit v u) : e'.Within home limit := by
  induction hl with
  | refl => exact h
  | step pick hstep _ ih =>
    refine ih (h.step hstep fun u => hfits _ _ u (.refl _ _) h.home) fun v d u hd => ?_
    exact hfits v d u (.step pick hstep hd)

theorem Watched.within {m : Model S} {home : SchedulerId} {limit : Nat}
    {P : World S → Evaluator S α → Prop} {w w' : World S} {e e' : Evaluator S α}
    (hw : Watched m (.roomy home limit) P w e) (hP : ∀ w e, P w e → ∃ x, e.Gave x)
    (h : e.Within home limit) (hl : Leads m w e w' e') : e'.Within home limit := by
  refine hl.within h fun v d u hd hhome hwrites hfocus => Evaluator.fits_of_roomy ?_
  rw [hhome]
  refine (hw.allows_of_leads (fun v d hend => ?_) hd).enters u hwrites hfocus
  obtain ⟨x, hgave⟩ := hP v d hend
  exact ⟨fun pick => hgave.step_eq_none m pick v, hgave.allows _ v⟩

end Attribution.Engine
