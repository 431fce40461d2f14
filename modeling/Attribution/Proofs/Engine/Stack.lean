import Attribution.Proofs.Engine.Move
/-!
# Stacks and statuses

What a move keeps between the table of a scheduler and the stack of the
evaluator that moves: units on the stack are owned and marked (`Move.held`),
units taken off it are released, the heads of cycles stay below
(`Move.headsBelow`), every change of a status is one of a short list
(`Move.status_change`), and the pending units are the phased ones that have not
ended (`Move.lists`).
-/

namespace Attribution.Engine

variable {S : Schema} {α : Type}

def Status.canBecome : Status → Status → Bool
  | .new, .running => true
  | .running, .runningRecursive | .running, .runningWillFail | .running, .new
  | .running, .success | .running, .fail => true
  | .runningRecursive, .runningWillFail | .runningRecursive, .new
  | .runningRecursive, .success | .runningRecursive, .fail => true
  | .runningWillFail, .fail => true
  | _, _ => false

/-- What may become of the status of a unit in one step: it is kept, or it
changes in one of the ways above, or the unit is new. -/
def Status.Change (before after : Option Status) : Prop :=
  after = before ∨ (before = none ∧ after = some .new) ∨
    ∃ a b, before = some a ∧ after = some b ∧ a.canBecome b = true

theorem Status.Change.eq_new {after : Status} (h : Status.Change none (some after)) :
    after = .new := by
  rcases h with h | ⟨-, h⟩ | ⟨a, b, h, -⟩
  · cases h
  · exact Option.some.inj h
  · cases h

/-! ## What a move does to statuses and owners -/

/-- The frame is on the stack of evaluator `owner`, and the table knows. -/
structure Frame.Held (s : Scheduler S.Rule) (owner : EvaluatorId) (f : Frame S) : Prop where
  owner : s.owner? f.unit.id = some owner
  status : ∃ status, s.status? f.unit.id = some status ∧ status.isRunning = true ∧
    (status = .runningWillFail ↔ f.doomed = true)

/-- The head of a cycle lies below the frames that take part in it. -/
def Frame.HeadsBelow : List (Frame S) → Prop
  | [] => True
  | f :: rest => (∀ head, f.head = some head → head < rest.length) ∧ HeadsBelow rest

namespace Frame

variable {s s' : Scheduler S.Rule} {owner : EvaluatorId}

theorem Held.lt_size {f : Frame S} (h : f.Held s owner) : f.unit.id < s.entries.size := by
  obtain ⟨status, hs, -⟩ := h.status
  exact s.lt_size_of_status? hs

theorem Held.congr {f g : Frame S} (h : f.Held s owner) (hu : g.unit = f.unit)
    (hd : g.doomed = f.doomed) (ho : s'.owner? f.unit.id = s.owner? f.unit.id)
    (hs : s'.status? f.unit.id = s.status? f.unit.id) : g.Held s' owner := by
  refine ⟨?_, ?_⟩
  · rw [hu, ho]
    exact h.owner
  · rw [hu, hs, hd]
    exact h.status

theorem outcome_not_running (f : Frame S) (result : Except Error Unit) :
    (f.outcome result).1.isRunning = false := by
  unfold outcome
  repeat' split
  all_goals rfl

theorem outcome_of_doomed {f : Frame S} (h : f.doomed = true) (result : Except Error Unit) :
    (f.outcome result).1 = .fail := by
  unfold outcome
  split
  · rfl
  · rw [if_pos h]

theorem headsBelow_append {above : List (Frame S)} {f : Frame S} {below : List (Frame S)}
    (h : HeadsBelow (above ++ f :: below)) {head : Nat} (hf : f.head = some head) :
    head < below.length := by
  induction above with
  | nil => exact h.1 head hf
  | cons g rest ih => exact ih h.2

theorem headsBelow_joinCycle {index : Nat} {above : List (Frame S)} {f : Frame S}
    {below : List (Frame S)} (hi : below.length = index)
    (h : HeadsBelow (above ++ f :: below)) :
    HeadsBelow (above.map (joinCycle index) ++ f :: below) := by
  induction above with
  | nil => exact h
  | cons g rest ih =>
    refine ⟨fun head hg => ?_, ih h.2⟩
    have hlen : index < (rest.map (joinCycle index) ++ f :: below).length := by
      simp only [List.length_append, List.length_map, List.length_cons]
      omega
    have hle : head ≤ index := by
      simp only [joinCycle, Option.some.injEq] at hg
      split at hg
      · omega
      · omega
    exact Nat.lt_of_le_of_lt hle hlen

theorem exists_of_mem_joinCycleAbove {index : Nat} {frames : List (Frame S)} {g : Frame S}
    (hg : g ∈ joinCycleAbove index frames) :
    ∃ f ∈ frames, g.unit = f.unit ∧ g.doomed = f.doomed := by
  induction frames with
  | nil => cases hg
  | cons f rest ih =>
    rw [joinCycleAbove] at hg
    split at hg
    · rcases List.mem_cons.1 hg with rfl | hg
      · exact ⟨f, List.mem_cons_self, rfl, rfl⟩
      · obtain ⟨h, hh, heq⟩ := ih hg
        exact ⟨h, List.mem_cons_of_mem _ hh, heq⟩
    · exact ⟨g, hg, rfl, rfl⟩

theorem units_joinCycleAbove (index : Nat) (frames : List (Frame S)) :
    (joinCycleAbove index frames).map unit = frames.map unit := by
  induction frames with
  | nil => rfl
  | cons f rest ih =>
    rw [joinCycleAbove]
    split
    · rw [List.map_cons, List.map_cons, ih]
      rfl
    · rfl

end Frame

namespace Move

variable {s s' : Scheduler S.Rule} {e : Evaluator S α} {frames : List (Frame S)}
  {units : List (WorkUnit S.Rule)}

/-- A move leaves the units alone that are on the stack neither before nor
after it. -/
theorem untouched (hm : Move s e s' frames units) (hheld : ∀ f ∈ e.frames, f.Held s e.id)
    {id : UnitId} (hbefore : ∀ f ∈ e.frames, f.unit.id ≠ id)
    (hafter : ∀ f ∈ frames, f.unit.id ≠ id) :
    (id < s.entries.size → s'.status? id = s.status? id) ∧ s'.owner? id = s.owner? id := by
  cases hm with
  | stay | fill | join => exact ⟨fun _ => rfl, rfl⟩
  | register label phase rule =>
    rw [s.status?_register, s.owner?_register]
    exact ⟨fun hid => if_neg (Nat.ne_of_lt hid), rfl⟩
  | claim hm hu hs hp hd =>
    have hne := Ne.symm (hafter _ List.mem_cons_self)
    have hlt := s.lt_size_of_status? hs
    rw [s.status?_claim hlt, s.owner?_claim hlt, if_neg hne, if_neg hne]
    exact ⟨fun _ => rfl, rfl⟩
  | @doom f rest hf hd =>
    have hmem : f ∈ e.frames := by rw [hf]; exact List.mem_cons_self
    rw [s.status?_setStatus (hheld f hmem).lt_size, s.owner?_setStatus,
      if_neg (Ne.symm (hbefore f hmem))]
    exact ⟨fun _ => rfl, rfl⟩
  | recur hi hs =>
    obtain ⟨above, f, below, hf, rfl, -⟩ := Frame.exists_of_indexOf? hi
    have hmem : f ∈ e.frames := by rw [hf]; simp
    rw [s.status?_setStatus (hheld f hmem).lt_size, s.owner?_setStatus,
      if_neg (Ne.symm (hbefore f hmem))]
    exact ⟨fun _ => rfl, rfl⟩
  | @settle f rest result hf =>
    have hmem : f ∈ e.frames := by rw [hf]; exact List.mem_cons_self
    have hne := Ne.symm (hbefore f hmem)
    have hlt := (hheld f hmem).lt_size
    rw [s.status?_settle hlt, s.owner?_settle hlt, if_neg hne, if_neg hne]
    exact ⟨fun _ => rfl, rfl⟩

theorem held (hm : Move s e s' frames units) (hheld : ∀ f ∈ e.frames, f.Held s e.id)
    (hnodup : (e.frames.map fun f => f.unit.id).Nodup) : ∀ f ∈ frames, f.Held s' e.id := by
  cases hm with
  | stay => exact hheld
  | @fill f rest c hf =>
    rw [hf] at hheld
    intro g hg
    rcases List.mem_cons.1 hg with rfl | hg
    · exact (hheld f List.mem_cons_self).congr rfl rfl rfl rfl
    · exact hheld g (List.mem_cons_of_mem _ hg)
  | register label phase rule =>
    intro g hg
    refine (hheld g hg).congr rfl rfl (s.owner?_register _ _) ?_
    rw [s.status?_register, if_neg (Nat.ne_of_lt (hheld g hg).lt_size)]
  | claim hm hu hs hp hd =>
    have hlt := s.lt_size_of_status? hs
    intro g hg
    rcases List.mem_cons.1 hg with rfl | hg
    · refine ⟨?_, .running, ?_, rfl, by simp⟩
      · rw [s.owner?_claim hlt, if_pos rfl]
      · rw [s.status?_claim hlt, if_pos rfl]
    · have hne := Frame.indexOf?_eq_none_iff.1 hu g hg
      refine (hheld g hg).congr rfl rfl ?_ ?_
      · rw [s.owner?_claim hlt, if_neg hne]
      · rw [s.status?_claim hlt, if_neg hne]
  | @doom f rest hf hd =>
    rw [hf] at hheld hnodup
    have hf' := hheld f List.mem_cons_self
    intro g hg
    rcases List.mem_cons.1 hg with rfl | hg
    · refine ⟨?_, .runningWillFail, ?_, rfl, by simp⟩
      · rw [s.owner?_setStatus]
        exact hf'.owner
      · rw [s.status?_setStatus hf'.lt_size, if_pos rfl]
    · have hne : g.unit.id ≠ f.unit.id := fun heq =>
        (List.nodup_cons.1 hnodup).1 (List.mem_map.2 ⟨g, hg, heq⟩)
      refine (hheld g (List.mem_cons_of_mem _ hg)).congr rfl rfl (s.owner?_setStatus _ _ _) ?_
      rw [s.status?_setStatus hf'.lt_size, if_neg hne]
  | @recur id index hi hs =>
    obtain ⟨above, f, below, hf, hid, -⟩ := Frame.exists_of_indexOf? hi
    have hlt : id < s.entries.size := hid ▸ (hheld f (by rw [hf]; simp)).lt_size
    intro g hg
    obtain ⟨h, hh, hu, hd⟩ := Frame.exists_of_mem_joinCycleAbove hg
    have hold := hheld h hh
    by_cases heq : h.unit.id = id
    · obtain ⟨status, hstatus, -, hdoomed⟩ := hold.status
      have hnot : h.doomed ≠ true := fun hd => hs (by rw [← heq, hstatus, hdoomed.2 hd])
      refine ⟨?_, .runningRecursive, ?_, rfl, ?_⟩
      · rw [s.owner?_setStatus, hu]
        exact hold.owner
      · rw [s.status?_setStatus hlt, hu, if_pos heq]
      · rw [hd]
        exact ⟨fun h => absurd h (by decide), fun h => absurd h hnot⟩
    · refine hold.congr hu hd (s.owner?_setStatus _ _ _) ?_
      rw [s.status?_setStatus hlt, if_neg heq]
  | join hi =>
    intro g hg
    obtain ⟨h, hh, hu, hd⟩ := Frame.exists_of_mem_joinCycleAbove hg
    exact (hheld h hh).congr hu hd rfl rfl
  | @settle f rest result hf =>
    rw [hf] at hheld hnodup
    have hlt := (hheld f List.mem_cons_self).lt_size
    intro g hg
    have hne : g.unit.id ≠ f.unit.id := fun heq =>
      (List.nodup_cons.1 hnodup).1 (List.mem_map.2 ⟨g, hg, heq⟩)
    refine (hheld g (List.mem_cons_of_mem _ hg)).congr rfl rfl ?_ ?_
    · rw [s.owner?_settle hlt, if_neg hne]
    · rw [s.status?_settle hlt, if_neg hne]

theorem nodup (hm : Move s e s' frames units)
    (hnodup : (e.frames.map fun f => f.unit.id).Nodup) :
    (frames.map fun f => f.unit.id).Nodup := by
  have hids : ∀ fs : List (Frame S), fs.map (fun f => f.unit.id) =
      (fs.map Frame.unit).map WorkUnit.id := fun fs => by simp
  cases hm with
  | stay | register => exact hnodup
  | fill c hf | doom hf hd =>
    rw [hf] at hnodup
    exact hnodup
  | @claim u hm hu hs hp hd =>
    rw [List.map_cons, List.nodup_cons]
    refine ⟨fun hmem => ?_, hnodup⟩
    obtain ⟨g, hg, heq⟩ := List.mem_map.1 hmem
    exact Frame.indexOf?_eq_none_iff.1 hu g hg heq
  | recur hi | join hi =>
    rw [hids, Frame.units_joinCycleAbove, ← hids]
    exact hnodup
  | settle result hf =>
    rw [hf] at hnodup
    exact (List.nodup_cons.1 hnodup).2

/-- A unit that is taken off the stack is no longer owned or running. -/
theorem released (hm : Move s e s' frames units) (hheld : ∀ f ∈ e.frames, f.Held s e.id)
    {f : Frame S} (hf : f ∈ e.frames) (hgone : ∀ g ∈ frames, g.unit.id ≠ f.unit.id) :
    s'.owner? f.unit.id = none ∧
      ∃ status, s'.status? f.unit.id = some status ∧ status.isRunning = false := by
  have hkept : frames.map Frame.unit ≠ e.frames.map Frame.unit := fun heq => by
    have hmem : f.unit ∈ frames.map Frame.unit := by
      rw [heq]
      exact List.mem_map.2 ⟨f, hf, rfl⟩
    obtain ⟨g, hg, hgu⟩ := List.mem_map.1 hmem
    exact hgone g hg (by rw [hgu])
  cases hm with
  | stay | register => exact absurd rfl hkept
  | fill c he | doom he hd => exact absurd (by rw [he]; rfl) hkept
  | claim => exact absurd rfl (hgone f (List.mem_cons_of_mem _ hf))
  | recur hi | join hi => exact absurd (Frame.units_joinCycleAbove _ _) hkept
  | @settle g rest result he =>
    have hlt := (hheld g (by rw [he]; exact List.mem_cons_self)).lt_size
    rw [he] at hf
    rcases List.mem_cons.1 hf with rfl | hf
    · rw [s.owner?_settle hlt, s.status?_settle hlt, if_pos rfl, if_pos rfl]
      exact ⟨rfl, _, rfl, f.outcome_not_running result⟩
    · exact absurd rfl (hgone f hf)

/-- After a move a unit is on the stack, or it has left it, or the move was not about
that unit. -/
theorem fate (hm : Move s e s' frames units) (hheld : ∀ f ∈ e.frames, f.Held s e.id)
    (id : UnitId) : (∃ f ∈ frames, f.unit.id = id) ∨
      (s'.owner? id = none ∧
        ∃ status, s'.status? id = some status ∧ status.isRunning = false) ∨
      ((∀ f ∈ e.frames, f.unit.id ≠ id) ∧ s'.owner? id = s.owner? id ∧
        (id < s.entries.size → s'.status? id = s.status? id)) := by
  by_cases hafter : ∃ f ∈ frames, f.unit.id = id
  · exact .inl hafter
  have hgone : ∀ f ∈ frames, f.unit.id ≠ id := fun f hf heq => hafter ⟨f, hf, heq⟩
  by_cases hbefore : ∃ f ∈ e.frames, f.unit.id = id
  · obtain ⟨f, hf, rfl⟩ := hbefore
    exact .inr (.inl (hm.released hheld hf hgone))
  · have hnot : ∀ f ∈ e.frames, f.unit.id ≠ id := fun f hf heq => hbefore ⟨f, hf, heq⟩
    obtain ⟨hstatus, howner⟩ := hm.untouched hheld hnot hgone
    exact .inr (.inr ⟨hnot, howner, hstatus⟩)

theorem status_change (hm : Move s e s' frames units) (hheld : ∀ f ∈ e.frames, f.Held s e.id)
    (id : UnitId) : Status.Change (s.status? id) (s'.status? id) := by
  cases hm with
  | stay | fill | join => exact .inl rfl
  | register label phase rule =>
    rw [s.status?_register]
    split
    · rename_i h
      exact .inr (.inl ⟨(s.status?_eq_none_iff id).2 (Nat.le_of_eq h.symm), rfl⟩)
    · exact .inl rfl
  | claim hm hu hs hp hd =>
    rw [s.status?_claim (s.lt_size_of_status? hs)]
    split
    · rename_i h
      exact .inr (.inr ⟨_, _, h ▸ hs, rfl, rfl⟩)
    · exact .inl rfl
  | @doom f rest hf hd =>
    have hf' := hheld f (by rw [hf]; exact List.mem_cons_self)
    obtain ⟨status, hstatus, hrun, hdoomed⟩ := hf'.status
    rw [s.status?_setStatus hf'.lt_size]
    split
    · rename_i h
      refine .inr (.inr ⟨status, _, h ▸ hstatus, rfl, ?_⟩)
      cases status with
      | new | success | fail => cases hrun
      | running | runningRecursive => rfl
      | runningWillFail => exact absurd (hdoomed.1 rfl) (by simp [hd])
    · exact .inl rfl
  | @recur unit index hi hs =>
    obtain ⟨above, f, below, hf, rfl, -⟩ := Frame.exists_of_indexOf? hi
    have hf' := hheld f (by rw [hf]; simp)
    obtain ⟨status, hstatus, hrun, -⟩ := hf'.status
    rw [s.status?_setStatus hf'.lt_size]
    split
    · rename_i h
      subst h
      rw [hstatus] at hs ⊢
      cases status with
      | new | success | fail => cases hrun
      | running => exact .inr (.inr ⟨_, _, rfl, rfl, rfl⟩)
      | runningRecursive => exact .inl rfl
      | runningWillFail => exact absurd rfl hs
    · exact .inl rfl
  | @settle f rest result hf =>
    have hf' := hheld f (by rw [hf]; exact List.mem_cons_self)
    obtain ⟨status, hstatus, hrun, hdoomed⟩ := hf'.status
    rw [s.status?_settle hf'.lt_size]
    split
    · rename_i h
      refine .inr (.inr ⟨status, _, h ▸ hstatus, rfl, ?_⟩)
      cases status with
      | new | success | fail => cases hrun
      | running | runningRecursive =>
        unfold Frame.outcome
        repeat' split
        all_goals rfl
      | runningWillFail =>
        rw [Frame.outcome_of_doomed (hdoomed.1 rfl)]
        rfl
    · exact .inl rfl

theorem headsBelow (hm : Move s e s' frames units) (h : Frame.HeadsBelow e.frames) :
    Frame.HeadsBelow frames := by
  cases hm with
  | stay | register => exact h
  | fill c hf | doom hf hd =>
    rw [hf] at h
    exact h
  | claim => exact ⟨fun _ hn => (by cases hn), h⟩
  | recur hi | join hi =>
    obtain ⟨above, f, below, hf, -, hl⟩ := Frame.exists_of_indexOf? hi
    rw [hf] at h ⊢
    rw [Frame.joinCycleAbove_append above f hl]
    exact Frame.headsBelow_joinCycle hl h
  | settle result hf =>
    rw [hf] at h
    exact h.2

/-- A unit on the stack after a move was there before, or nobody ran it. -/
theorem origin (hm : Move s e s' frames units) {f : Frame S} (hf : f ∈ frames) :
    (∃ g ∈ e.frames, g.unit = f.unit) ∨ (s.status? f.unit.id = some .new ∧ e.Mentions f.unit) := by
  cases hm with
  | stay | register => exact .inl ⟨f, hf, rfl⟩
  | @fill g rest c he | @doom g rest he hd =>
    rcases List.mem_cons.1 hf with rfl | hf
    · exact .inl ⟨g, by rw [he]; exact List.mem_cons_self, rfl⟩
    · exact .inl ⟨f, by rw [he]; exact List.mem_cons_of_mem _ hf, rfl⟩
  | claim hm hu hs hp hd =>
    rcases List.mem_cons.1 hf with rfl | hf
    · exact .inr ⟨hs, hm⟩
    · exact .inl ⟨f, hf, rfl⟩
  | recur hi | join hi =>
    obtain ⟨g, hg, hu, -⟩ := Frame.exists_of_mem_joinCycleAbove hf
    exact .inl ⟨g, hg, hu.symm⟩
  | settle result he => exact .inl ⟨f, by rw [he]; exact List.mem_cons_of_mem _ hf, rfl⟩

end Move

/-! ## The units of a scheduler -/

theorem Status.not_terminal_of_running {status : Status} (h : status.isRunning = true) :
    status.isTerminal = false := by
  cases status with
  | new | success | fail => cases h
  | running | runningRecursive | runningWillFail => rfl

namespace Scheduler

variable {ρ : Type} {s s' : Scheduler ρ} {home : SchedulerId} {issued : List (WorkUnit ρ)}

def Unfinished (s : Scheduler ρ) (u : WorkUnit ρ) : Prop :=
  ∃ status, s.status? u.id = some status ∧ status.isTerminal = false

/-- The scheduler's units in the order of their numbers. The pending ones are
exactly those with a phase that have not ended. -/
structure Lists (s : Scheduler ρ) (home : SchedulerId) (issued : List (WorkUnit ρ)) : Prop where
  size : issued.length = s.entries.size
  id : ∀ (i : Nat) (u : WorkUnit ρ), issued[i]? = some u → u.id = i
  home : ∀ u ∈ issued, u.home = home
  pending : ∀ p u, (p, u) ∈ s.pending ↔ u ∈ issued ∧ u.phase = some p ∧ s.Unfinished u
  nodup : (s.pending.map fun x => x.2.id).Nodup
  tidy : s.phases.Tidy

theorem lists_nil (hsize : s.entries.size = 0) (hphases : s.phases = {}) :
    s.Lists home [] := by
  have hpending : s.pending = [] := by
    rw [pending, hphases]
    rfl
  refine ⟨hsize.symm, ?_, ?_, fun p u => ?_, ?_, ?_⟩
  · simp
  · simp
  · simp [hpending]
  · rw [hpending]
    exact List.nodup_nil
  · rw [hphases]
    exact Registry.tidy_empty

theorem Lists.eq_of_id (h : s.Lists home issued) {u v : WorkUnit ρ} (hu : u ∈ issued)
    (hv : v ∈ issued) (hid : u.id = v.id) : u = v := by
  obtain ⟨i, hi⟩ := List.mem_iff_getElem?.1 hu
  obtain ⟨j, hj⟩ := List.mem_iff_getElem?.1 hv
  have hij : i = j := by rw [← h.id i u hi, ← h.id j v hj, hid]
  subst hij
  exact Option.some.inj (hi.symm.trans hj)

theorem Lists.lt_size (h : s.Lists home issued) {u : WorkUnit ρ} (hu : u ∈ issued) :
    u.id < s.entries.size := by
  obtain ⟨i, hi⟩ := List.mem_iff_getElem?.1 hu
  rw [h.id i u hi, ← h.size]
  exact (List.getElem?_eq_some_iff.1 hi).1

theorem Lists.exists_of_lt (h : s.Lists home issued) {id : UnitId} (hid : id < s.entries.size) :
    ∃ u ∈ issued, u.id = id := by
  rw [← h.size] at hid
  exact ⟨issued[id], List.getElem_mem hid, h.id id _ (List.getElem?_eq_getElem hid)⟩

theorem Lists.congr (h : s.Lists home issued) (he : s'.table = s.table) :
    s'.Lists home issued := by
  have hun : ∀ u, s'.Unfinished u ↔ s.Unfinished u := fun u => by
    rw [Unfinished, Unfinished, status?_eq_of_table he]
  refine ⟨?_, h.id, h.home, fun p u => ?_, ?_, ?_⟩
  · rw [entries_eq_of_table he]
    exact h.size
  · rw [pending_eq_of_table he, hun]
    exact h.pending p u
  · rw [pending_eq_of_table he]
    exact h.nodup
  · rw [phases_eq_of_table he]
    exact h.tidy

theorem Lists.of_status (h : s.Lists home issued) {id : UnitId} {a b : Status}
    (hs : ∀ j, s'.status? j = if j = id then some b else s.status? j)
    (ha : s.status? id = some a) (hat : a.isTerminal = false) (hbt : b.isTerminal = false)
    (hsize : s'.entries.size = s.entries.size) (hp : s'.phases = s.phases) :
    s'.Lists home issued := by
  have hun : ∀ u, s'.Unfinished u ↔ s.Unfinished u := fun u => by
    rw [Unfinished, Unfinished, hs]
    by_cases hu : u.id = id
    · rw [if_pos hu, hu, ha]
      exact ⟨fun _ => ⟨a, rfl, hat⟩, fun _ => ⟨b, rfl, hbt⟩⟩
    · rw [if_neg hu]
  have hpending : s'.pending = s.pending := by rw [Scheduler.pending, Scheduler.pending, hp]
  refine ⟨h.size.trans hsize.symm, h.id, h.home, fun p u => ?_, hpending ▸ h.nodup, hp ▸ h.tidy⟩
  rw [hpending, hun]
  exact h.pending p u

theorem Lists.register (h : s.Lists home issued) (label : String) (phase : Option Phase)
    (rule : ρ) : (s.register (s.nextUnit home label phase rule)).Lists home
      (issued ++ [s.nextUnit home label phase rule]) := by
  have hnew : ∀ u ∈ issued, u.id ≠ s.entries.size := fun u hu => Nat.ne_of_lt (h.lt_size hu)
  have hun : ∀ u ∈ issued, ((s.register (s.nextUnit home label phase rule)).Unfinished u ↔
      s.Unfinished u) := fun u hu => by
    rw [Unfinished, Unfinished, s.status?_register, if_neg (hnew u hu)]
  have hperm := Registry.perm_register (r := s.phases) (u := s.nextUnit home label phase rule)
    fun x hx => hnew x.2 ((h.pending x.1 x.2).1 hx).1
  refine ⟨?_, fun i u hi => ?_, fun u hu => ?_, fun p u => ?_, ?_, h.tidy.register _⟩
  · rw [List.length_append, s.size_register, h.size]
    rfl
  · rcases Nat.lt_or_ge i issued.length with hlt | hge
    · rw [List.getElem?_append_left hlt] at hi
      exact h.id i u hi
    · rw [List.getElem?_append_right hge] at hi
      obtain ⟨hlt, rfl⟩ := List.getElem?_eq_some_iff.1 hi
      have hi' : i = issued.length := by simp at hlt; omega
      subst hi'
      simp [nextUnit, h.size]
  · rcases List.mem_append.1 hu with hu | hu
    · exact h.home u hu
    · rw [List.mem_singleton.1 hu]
      rfl
  · have hmem : (p, u) ∈ (s.register (s.nextUnit home label phase rule)).pending ↔
        (u.phase = some p ∧ u = s.nextUnit home label phase rule) ∨ (p, u) ∈ s.pending := by
      rw [Scheduler.pending, Scheduler.register, hperm.mem_iff, List.mem_append, Option.mem_toList]
      refine or_congr_left ?_
      constructor
      · intro hnext
        obtain ⟨q, hq, heq⟩ := Option.map_eq_some_iff.1 hnext
        cases heq
        exact ⟨hq, rfl⟩
      · rintro ⟨hp, rfl⟩
        rw [hp]
        rfl
    rw [hmem, h.pending p u, List.mem_append, List.mem_singleton]
    constructor
    · rintro (⟨hp, rfl⟩ | ⟨hu, hp, hf⟩)
      · refine ⟨.inr rfl, hp, .new, ?_, rfl⟩
        exact (s.status?_register _ _).trans (if_pos rfl)
      · exact ⟨.inl hu, hp, (hun u hu).2 hf⟩
    · rintro ⟨hu | rfl, hp, hf⟩
      · exact .inr ⟨hu, hp, (hun u hu).1 hf⟩
      · exact .inl ⟨hp, rfl⟩
  · refine (hperm.map _).nodup_iff.2 ?_
    rw [List.map_append]
    cases hphase : (s.nextUnit home label phase rule).phase with
    | none => exact h.nodup
    | some q =>
      refine List.nodup_cons.2 ⟨fun hid => ?_, h.nodup⟩
      obtain ⟨x, hx, hid⟩ := List.mem_map.1 hid
      exact hnew x.2 ((h.pending x.1 x.2).1 hx).1 hid

theorem Lists.settle (h : s.Lists home issued) {v : WorkUnit ρ} (hv : v ∈ issued) {a b : Status}
    (ha : s.status? v.id = some a) (hat : a.isTerminal = false) :
    (s.settle v b).Lists home issued := by
  cases hb : b.isTerminal with
  | false =>
    refine h.of_status (s.status?_settle (h.lt_size hv) b) ha hat hb (s.size_settle v b) ?_
    simp [Scheduler.settle, hb]
  | true =>
    refine ⟨h.size.trans (s.size_settle v b).symm, h.id, h.home, fun p u => ?_,
      h.nodup.sublist ((s.pending_settle_sublist v b).map _), s.tidy_settle h.tidy v b⟩
    rw [s.mem_pending_settle, h.pending p u]
    by_cases huv : u = v
    · subst huv
      constructor
      · rintro ⟨⟨-, hp, -⟩, hne⟩
        exact absurd ⟨hb, hp, rfl⟩ hne
      · rintro ⟨-, -, status, hs, ht⟩
        rw [s.status?_settle (h.lt_size hv), if_pos rfl] at hs
        rw [← Option.some.inj hs, hb] at ht
        cases ht
    · -- A unit of another number keeps its status.
      have hstatus : u ∈ issued → (s.settle v b).status? u.id = s.status? u.id := fun hu => by
        rw [s.status?_settle (h.lt_size hv), if_neg fun hid => huv (h.eq_of_id hu hv hid)]
      constructor
      · rintro ⟨⟨hu, hp, hf⟩, -⟩
        exact ⟨hu, hp, by rw [Unfinished, hstatus hu]; exact hf⟩
      · rintro ⟨hu, hp, hf⟩
        rw [Unfinished, hstatus hu] at hf
        exact ⟨⟨hu, hp, hf⟩, fun hn => huv (h.eq_of_id hu hv hn.2.2)⟩

end Scheduler

theorem Move.lists {s s' : Scheduler S.Rule} {e : Evaluator S α} {frames : List (Frame S)}
    {units issued : List (WorkUnit S.Rule)} (hm : Move s e s' frames units)
    (hheld : ∀ f ∈ e.frames, f.Held s e.id) (hissued : ∀ f ∈ e.frames, f.unit ∈ issued)
    (h : s.Lists e.home issued) : s'.Lists e.home (issued ++ units) := by
  cases hm with
  | stay | fill | join =>
    rw [List.append_nil]
    exact h
  | register label phase rule => exact h.register label phase rule
  | claim hm hu hs hp hd =>
    rw [List.append_nil]
    exact h.of_status (s.status?_claim (s.lt_size_of_status? hs) _) hs rfl rfl (s.size_claim _ _)
      rfl
  | @doom f rest hf hd =>
    have hf' := hheld f (by rw [hf]; exact List.mem_cons_self)
    obtain ⟨status, hstatus, hrun, -⟩ := hf'.status
    rw [List.append_nil]
    exact h.of_status (s.status?_setStatus hf'.lt_size _) hstatus
      (Status.not_terminal_of_running hrun) rfl (s.size_setStatus _ _) rfl
  | @recur unit index hi hs =>
    obtain ⟨above, f, below, hf, rfl, -⟩ := Frame.exists_of_indexOf? hi
    have hf' := hheld f (by rw [hf]; simp)
    obtain ⟨status, hstatus, hrun, -⟩ := hf'.status
    rw [List.append_nil]
    exact h.of_status (s.status?_setStatus hf'.lt_size _) hstatus
      (Status.not_terminal_of_running hrun) rfl (s.size_setStatus _ _) rfl
  | @settle f rest result hf =>
    have hmem : f ∈ e.frames := by rw [hf]; exact List.mem_cons_self
    obtain ⟨status, hstatus, hrun, -⟩ := (hheld f hmem).status
    rw [List.append_nil]
    exact h.settle (hissued f hmem) hstatus (Status.not_terminal_of_running hrun)

end Attribution.Engine
