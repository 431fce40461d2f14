import Attribution.Proofs.Engine.Team
/-!
# The phase barrier

A unit starts to run in exactly one kind of move, the claim, and a claim is
only made while no unit of a lower phase is pending. As the pending units are
the phased ones that have not ended, at the moment a unit of some phase starts
every unit of every lower phase has ended. It makes no difference who asked for
the unit: a reader, a barrier that helps, a second run after a provisional
result.
-/

namespace Attribution.Engine

variable {S : Schema} {α : Type}

structure Move.Claims (s : Scheduler S.Rule) (e : Evaluator S α) (s' : Scheduler S.Rule)
    (units : List (WorkUnit S.Rule)) (u : WorkUnit S.Rule) : Prop where
  mentions : e.Mentions u
  no_earlier : ∀ p, u.phase = some p → s.hasEarlier p = false
  registers_none : units = []
  others : ∀ id, id ≠ u.id → s'.status? id = s.status? id

theorem Move.claims_of_started {s s' : Scheduler S.Rule} {e : Evaluator S α}
    {frames : List (Frame S)} {units : List (WorkUnit S.Rule)} (hm : Move s e s' frames units)
    (hheld : ∀ f ∈ e.frames, f.Held s e.id) {id : UnitId} (hnew : s.status? id = some .new)
    (hrun : s'.status? id = some .running) : ∃ u, u.id = id ∧ Move.Claims s e s' units u := by
  -- Wherever the status of the unit is kept it would still be new.
  have hkept : s'.status? id ≠ s.status? id := fun h => by
    rw [hrun, hnew] at h
    cases h
  have hlt := s.lt_size_of_status? hnew
  cases hm with
  | stay | fill | join => exact absurd rfl hkept
  | register label phase rule =>
    rw [s.status?_register, if_neg (Nat.ne_of_lt hlt)] at hkept
    exact absurd rfl hkept
  | @claim u hmentions hu hs hp hd =>
    have hstatus := s.status?_claim (s.lt_size_of_status? hs) e.id
    have hid : u.id = id := by
      refine Decidable.byContradiction fun hne => hkept ?_
      rw [hstatus, if_neg (Ne.symm hne)]
    exact ⟨u, hid, hmentions, hp, rfl, fun j hj => by rw [hstatus, if_neg hj]⟩
  | @doom f rest hf hd =>
    rw [s.status?_setStatus (hheld f (by rw [hf]; exact List.mem_cons_self)).lt_size] at hrun hkept
    split at hrun
    · cases hrun
    · rename_i hne
      exact absurd (if_neg hne) hkept
  | @recur unit index hi hs =>
    obtain ⟨above, f, below, hf, rfl, -⟩ := Frame.exists_of_indexOf? hi
    rw [s.status?_setStatus (hheld f (by rw [hf]; simp)).lt_size] at hrun hkept
    split at hrun
    · cases hrun
    · rename_i hne
      exact absurd (if_neg hne) hkept
  | @settle f rest result hf =>
    rw [s.status?_settle (hheld f (by rw [hf]; exact List.mem_cons_self)).lt_size] at hrun hkept
    split at hrun
    · have hnot := f.outcome_not_running result
      rw [Option.some.inj hrun] at hnot
      cases hnot
    · rename_i hne
      exact absurd (if_neg hne) hkept

namespace Team

/-- While no unit of a lower phase is pending, all of them have ended. -/
theorem Orderly.ended_of_no_earlier {home : SchedulerId} {x : Team S α}
    {issued : List (WorkUnit S.Rule)} (h : Orderly home x issued) {k : Phase}
    (hk : (x.world.scheduler home).hasEarlier k = false) {v : WorkUnit S.Rule} (hv : v ∈ issued)
    {q : Phase} (hq : v.phase = some q) (hlt : q < k) :
    ∃ status, (x.world.scheduler home).status? v.id = some status ∧ status.isTerminal = true := by
  obtain ⟨status, hs⟩ := (x.world.scheduler home).exists_status?_of_lt (h.lists.lt_size hv)
  refine ⟨status, hs, ?_⟩
  rw [← Bool.not_eq_false]
  intro ht
  have hpending := (h.lists.pending q v).2 ⟨hv, hq, status, hs, ht⟩
  rw [(x.world.scheduler home).hasEarlier_of_mem hpending hlt] at hk
  cases hk

/-- **The barrier.** At the moment a unit of a phase starts to run, every unit of
a lower phase that was ever registered has ended. -/
theorem lower_phases_ended {m : Model S} {home : SchedulerId} {x y : Team S α}
    {issued new : List (WorkUnit S.Rule)} (hx : Reach m home x issued)
    (hturn : Turn m home issued x y new) {u : WorkUnit S.Rule} (hu : u ∈ issued) {k : Phase}
    (hk : u.phase = some k) (hnew : (x.world.scheduler home).status? u.id = some .new)
    (hrun : (y.world.scheduler home).status? u.id = some .running) :
    ∀ v ∈ issued ++ new, ∀ q, v.phase = some q → q < k → ∃ status,
      (x.world.scheduler home).status? v.id = some status ∧
      (y.world.scheduler home).status? v.id = some status ∧ status.isTerminal = true := by
  have h := hx.orderly
  cases hturn with
  | hire | resume => cases hnew.symm.trans hrun
  | step w w' before after e e' pick elsewhere hasks hstep =>
    have he : e ∈ before ++ e :: after := by simp
    have hhome := h.at_home e he
    have st : Stepped { w with elsewhere } e w' e' := by
      refine Evaluator.stepped_of_step ?_ (fun c u hu => ?_) hstep
      · rw [hhome]
        exact h.exists_home
      · rw [hhome]
        exact h.lists.home u (h.resolver c u hu)
    obtain ⟨s', hmove, htable⟩ := st.move
    rw [hhome] at hmove htable
    have hstatus := Scheduler.status?_eq_of_table htable
    obtain ⟨u', hid, hclaim⟩ :=
      hmove.claims_of_started (h.held e he) hnew (by rw [← hstatus]; exact hrun)
    obtain rfl := h.lists.eq_of_id (h.mentions e he u' hclaim.mentions) hu hid
    have hregisters : e.registers w = [] := hclaim.registers_none
    intro v hv q hq hlt
    rw [hregisters, List.append_nil] at hv
    obtain ⟨status, hs, ht⟩ := h.ended_of_no_earlier (hclaim.no_earlier k hk) hv hq hlt
    refine ⟨status, hs, ?_, ht⟩
    -- The unit that starts was new, so it is another one.
    have hne : v.id ≠ u'.id := fun heq => by
      rw [heq] at hs
      rw [Option.some.inj (hs.symm.trans hnew)] at ht
      cases ht
    rw [hstatus, hclaim.others v.id hne]
    exact hs

theorem Turn.alone {m : Model S} {home : SchedulerId} {issued : List (WorkUnit S.Rule)}
    {w w' : World S} {e e' : Evaluator S α} (pick : Nat) (hr : e.request? = none)
    (h : e.step m pick w = some (w', e')) : Turn m home issued ⟨w, [e]⟩ ⟨w', [e']⟩ [] :=
  .quiet [] [] pick hr h

private def idle : Model Attribute.schema :=
  { Subject.model ⟨Tree.ofProgram (.block []), {}⟩ with body := fun _ => .pure (.ok ()) }

private def early : WorkUnit CellKey := ⟨0, "early", some 0, ⟨.standard .constant, 0⟩, 0⟩

private def late : WorkUnit CellKey := ⟨1, "late", some 1, ⟨.standard .constant, 0⟩, 0⟩

/-- A unit of phase 1 is asked for while one of phase 0 is new. The barrier runs
the latter first, and has it ended when the former starts. -/
theorem lower_phases_ended_helped : ∃ x y : Team Attribute.schema Unit,
    Reach idle 0 x [early, late] ∧ Turn idle 0 [early, late] x y [] ∧
    (x.world.scheduler 0).status? late.id = some .new ∧
    (y.world.scheduler 0).status? late.id = some .running ∧
    ∃ status, (x.world.scheduler 0).status? early.id = some status ∧
      (y.world.scheduler 0).status? early.id = some status ∧ status.isTerminal = true := by
  have start := Reach.start (α := Unit) (m := idle) _
    (fresh_start ⟨Tree.ofProgram (.block []), {}⟩ {})
  have hired := start.turn (.hire _ none
    (.ask (.register early.label early.phase early.rule) fun _ =>
      .ask (.register late.label late.phase late.rule) fun u =>
        .ask (.attempt u) fun _ => .pure ()))
  have first := hired.turn (.step _ _ [] [] _ _ 0 (fun _ => false)
    (fun u hu => by rcases hu with hu | ⟨c, hu⟩ <;> cases hu) rfl)
  have second := first.turn (.step _ _ [] [] _ _ 0 (fun _ => false)
    (fun u hu => by rcases hu with hu | ⟨c, hu⟩ <;> cases hu) rfl)
  have asked : Reach idle 0 _ [early, late] := second.turn (.step _ _ [] [] _ _ 0
    (fun _ => false) (fun u hu => by
      rcases hu with hu | ⟨c, hu⟩
      · obtain rfl : late = u := Request.attempt.inj (Option.some.inj hu)
        exact List.mem_cons_of_mem _ List.mem_cons_self
      · cases hu) rfl)
  have stopped : Reach idle 0 _ [early, late] := asked.turn (.alone 0 rfl rfl)
  have helping : Reach idle 0 _ [early, late] := stopped.turn (.alone 0 rfl rfl)
  have claimed : Reach idle 0 _ [early, late] := helping.turn (.alone 0 rfl rfl)
  have closing : Reach idle 0 _ [early, late] := claimed.turn (.alone 0 rfl rfl)
  have settled : Reach idle 0 _ [early, late] := closing.turn (.alone 0 rfl rfl)
  have helped : Reach idle 0 _ [early, late] := settled.turn (.alone 0 rfl rfl)
  have passed : Reach idle 0 _ [early, late] := helped.turn (.alone 0 rfl rfl)
  refine ⟨_, _, passed, .alone 0 rfl rfl, ?new, ?running, ?ended⟩
  case new => decide +kernel
  case running => decide +kernel
  case ended =>
    exact lower_phases_ended (u := late) passed (.alone 0 rfl rfl)
      (List.mem_cons_of_mem _ List.mem_cons_self) rfl (by decide +kernel) (by decide +kernel) early
      List.mem_cons_self 0 rfl Nat.zero_lt_one

end Team

end Attribution.Engine
