import Attribution.Engine.World
import Attribution.Proofs.Engine.Registry
/-!
# Tables of a scheduler

How the operations on a table change the status, the owner and the pending
units that can be read from it. Everything is said about one unit at a time, so
that later modules never look into a `Roll` or an array of schedulers.
-/

namespace Attribution.Engine

namespace Scheduler

variable {ρ : Type} (s : Scheduler ρ)

/-! ## Statuses and owners -/

theorem status?_eq_none_iff (id : UnitId) : s.status? id = none ↔ s.entries.size ≤ id := by
  rw [status?, Option.map_eq_none_iff, Roll.get?_eq_none_iff]

theorem lt_size_of_status? {id : UnitId} {status : Status} (h : s.status? id = some status) :
    id < s.entries.size := by
  refine Nat.lt_of_not_le fun hge => ?_
  rw [(s.status?_eq_none_iff id).2 hge] at h
  cases h

theorem exists_status?_of_lt {id : UnitId} (h : id < s.entries.size) :
    ∃ status, s.status? id = some status := by
  cases hs : s.status? id with
  | none => exact absurd ((s.status?_eq_none_iff id).1 hs) (Nat.not_le.2 h)
  | some status => exact ⟨status, rfl⟩

theorem owner?_eq_none_of_size_le {id : UnitId} (h : s.entries.size ≤ id) :
    s.owner? id = none := by
  rw [owner?, (s.entries.get?_eq_none_iff id).2 h]
  rfl

theorem status?_setStatus {id : UnitId} (h : id < s.entries.size) (status : Status)
    (j : UnitId) :
    (s.setStatus id status).status? j = if j = id then some status else s.status? j := by
  simp only [status?, setStatus, Roll.get?_set, h, and_true]
  by_cases hj : id = j
  · simp [hj]
  · rw [if_neg hj, if_neg (Ne.symm hj)]

@[simp] theorem owner?_setStatus (id : UnitId) (status : Status) (j : UnitId) :
    (s.setStatus id status).owner? j = s.owner? j := by
  simp only [owner?, setStatus, Roll.get?_set]
  split
  · rename_i hj
    obtain ⟨rfl, -⟩ := hj
    rfl
  · rfl

@[simp] theorem size_setStatus (id : UnitId) (status : Status) :
    (s.setStatus id status).entries.size = s.entries.size := by
  simp [setStatus]

theorem status?_claim {id : UnitId} (h : id < s.entries.size) (owner : EvaluatorId)
    (j : UnitId) :
    (s.claim id owner).status? j = if j = id then some .running else s.status? j := by
  simp only [status?, claim, Roll.get?_set, h, and_true]
  by_cases hj : id = j
  · simp [hj]
  · rw [if_neg hj, if_neg (Ne.symm hj)]

theorem owner?_claim {id : UnitId} (h : id < s.entries.size) (owner : EvaluatorId)
    (j : UnitId) :
    (s.claim id owner).owner? j = if j = id then some owner else s.owner? j := by
  simp only [owner?, claim, Roll.get?_set, h, and_true]
  by_cases hj : id = j
  · simp [hj]
  · rw [if_neg hj, if_neg (Ne.symm hj)]

@[simp] theorem size_claim (id : UnitId) (owner : EvaluatorId) :
    (s.claim id owner).entries.size = s.entries.size := by
  simp [claim]

theorem status?_settle {u : WorkUnit ρ} (h : u.id < s.entries.size) (status : Status)
    (j : UnitId) :
    (s.settle u status).status? j = if j = u.id then some status else s.status? j := by
  simp only [status?, settle, Roll.get?_set, h, and_true]
  by_cases hj : u.id = j
  · simp [hj]
  · rw [if_neg hj, if_neg (Ne.symm hj)]

theorem owner?_settle {u : WorkUnit ρ} (h : u.id < s.entries.size) (status : Status)
    (j : UnitId) :
    (s.settle u status).owner? j = if j = u.id then none else s.owner? j := by
  simp only [owner?, settle, Roll.get?_set, h, and_true]
  by_cases hj : u.id = j
  · simp [hj]
  · rw [if_neg hj, if_neg (Ne.symm hj)]

@[simp] theorem size_settle (u : WorkUnit ρ) (status : Status) :
    (s.settle u status).entries.size = s.entries.size := by
  simp [settle]

theorem status?_register (u : WorkUnit ρ) (j : UnitId) :
    (s.register u).status? j = if j = s.entries.size then some .new else s.status? j := by
  simp only [status?, register, Roll.get?_push]
  by_cases hj : s.entries.size = j
  · simp [hj]
  · rw [if_neg hj, if_neg (Ne.symm hj)]

@[simp] theorem owner?_register (u : WorkUnit ρ) (j : UnitId) :
    (s.register u).owner? j = s.owner? j := by
  simp only [owner?, register, Roll.get?_push]
  by_cases hj : s.entries.size = j
  · rw [if_pos hj, (s.entries.get?_eq_none_iff j).2 (by omega)]
    rfl
  · rw [if_neg hj]

@[simp] theorem size_register (u : WorkUnit ρ) :
    (s.register u).entries.size = s.entries.size + 1 :=
  rfl

/-! ## Pending units -/

theorem mem_pending_of_register {u : WorkUnit ρ} {x : Phase × WorkUnit ρ}
    (h : x ∈ (s.register u).pending) : (u.phase = some x.1 ∧ u = x.2) ∨ x ∈ s.pending :=
  Registry.mem_of_mem_register h

theorem mem_pending_settle {u : WorkUnit ρ} {status : Status} {x : Phase × WorkUnit ρ} :
    x ∈ (s.settle u status).pending ↔
      x ∈ s.pending ∧ ¬(status.isTerminal = true ∧ u.phase = some x.1 ∧ x.2.id = u.id) := by
  unfold pending settle
  cases status.isTerminal with
  | false => simp
  | true => simpa using Registry.mem_units_settle

theorem pending_settle_sublist (u : WorkUnit ρ) (status : Status) :
    (s.settle u status).pending.Sublist s.pending := by
  unfold pending settle
  cases status.isTerminal with
  | false => exact List.Sublist.refl _
  | true => exact s.phases.sublist_settle u

theorem tidy_settle (h : s.phases.Tidy) (u : WorkUnit ρ) (status : Status) :
    (s.settle u status).phases.Tidy := by
  unfold settle
  cases status.isTerminal with
  | false => exact h
  | true => exact h.settle u

theorem hasEarlier_of_mem {phase : Phase} {x : Phase × WorkUnit ρ} (hx : x ∈ s.pending)
    (hlt : x.1 < phase) : s.hasEarlier phase = true :=
  Registry.isBlocked_of_mem hx hlt

theorem exists_of_hasEarlier (h : s.phases.Tidy) {phase : Phase}
    (hearlier : s.hasEarlier phase = true) : ∃ x ∈ s.pending, x.1 < phase :=
  h.exists_of_isBlocked hearlier

theorem hasEarlier_eq_false (h : s.phases.Tidy) {phase : Phase}
    (hnone : s.earlierUnits phase = []) : s.hasEarlier phase = false := by
  rw [Bool.eq_false_iff]
  intro hearlier
  obtain ⟨x, hx, hlt⟩ := s.exists_of_hasEarlier h hearlier
  have hmem : x ∈ s.earlierUnits phase := Registry.mem_blockers.2 ⟨hx, hlt⟩
  rw [hnone] at hmem
  cases hmem

theorem mem_earlierUnits {phase : Phase} {x : Phase × WorkUnit ρ} :
    x ∈ s.earlierUnits phase ↔ x ∈ s.pending ∧ x.1 < phase :=
  Registry.mem_blockers

end Scheduler

/-! ## Schedulers of a world -/

namespace World

variable {S : Schema} (w : World S)

theorem scheduler_modifyScheduler (i j : SchedulerId)
    (f : Scheduler S.Rule → Scheduler S.Rule) :
    (w.modifyScheduler i f).scheduler j =
      if j = i ∧ i < w.schedulers.size then f (w.scheduler j) else w.scheduler j := by
  simp only [scheduler, modifyScheduler, Array.getD_eq_getD_getElem?, Array.getElem?_modify]
  by_cases hij : i = j
  · subst hij
    by_cases hi : i < w.schedulers.size
    · simp [hi]
    · simp [hi]
  · rw [if_neg hij, if_neg fun h => hij h.1.symm]

theorem scheduler_modifyScheduler_self {i : SchedulerId} (h : i < w.schedulers.size)
    (f : Scheduler S.Rule → Scheduler S.Rule) :
    (w.modifyScheduler i f).scheduler i = f (w.scheduler i) := by
  rw [scheduler_modifyScheduler, if_pos ⟨rfl, h⟩]

@[simp] theorem size_modifyScheduler (i : SchedulerId)
    (f : Scheduler S.Rule → Scheduler S.Rule) :
    (w.modifyScheduler i f).schedulers.size = w.schedulers.size := by
  simp [modifyScheduler]

@[simp] theorem cell_modifyScheduler (i : SchedulerId)
    (f : Scheduler S.Rule → Scheduler S.Rule) (c : S.Key) :
    (w.modifyScheduler i f).cell c = w.cell c :=
  rfl

/-! ## Cells of a world -/

@[simp] theorem cell_modifyCell_self (c : S.Key) (f : Cell S c → Cell S c) :
    (w.modifyCell c f).cell c = f (w.cell c) :=
  Store.get_set_self _ _ _

theorem cell_modifyCell_ne {c d : S.Key} (f : Cell S c → Cell S c) (h : c ≠ d) :
    (w.modifyCell c f).cell d = w.cell d :=
  Store.get_set_ne _ _ h

theorem cell_setValue_self (c : S.Key) (v : CellValue (S.Val c)) :
    (w.setValue c v).cell c = { w.cell c with value := v } :=
  w.cell_modifyCell_self c _

theorem cell_setValue_ne {c d : S.Key} (v : CellValue (S.Val c)) (h : c ≠ d) :
    (w.setValue c v).cell d = w.cell d :=
  w.cell_modifyCell_ne _ h

/-- Clearing a cell whose resolver has not ended only takes its value away. -/
theorem reset_eq_of_unsettled (origin : Option Nat) (c : S.Key)
    (h : ∀ u, (w.cell c).resolver = some u → (w.unitStatus? u).any Status.isTerminal = false) :
    w.reset origin c = (w.setValue c .unset).note origin (.reset (S.name c)) := by
  have hcleared : ((w.setValue c .unset).cell c).resolver = (w.cell c).resolver := by
    rw [setValue, cell_modifyCell_self]
  unfold reset
  dsimp only
  rw [hcleared]
  cases hu : (w.cell c).resolver with
  | none => rfl
  | some u =>
    have ht : ((w.setValue c .unset).unitStatus? u).any Status.isTerminal = false := h u hu
    simp only [ht, Bool.false_eq_true, if_false]

/-- Clearing a cell whose resolver has ended puts a new unit in its place. -/
theorem reset_eq_of_settled (origin : Option Nat) {c : S.Key} {u : WorkUnit S.Rule}
    (hu : (w.cell c).resolver = some u)
    (ht : (w.unitStatus? u).any Status.isTerminal = true) :
    w.reset origin c =
      (((w.setValue c .unset).modifyScheduler u.home fun s =>
        s.register ((w.scheduler u.home).nextUnit u.home u.label u.phase u.rule)).modifyCell c
          fun cell => { cell with
            resolver := some ((w.scheduler u.home).nextUnit u.home u.label u.phase u.rule) }).note
        origin (.reset (S.name c)) := by
  have hcleared : ((w.setValue c .unset).cell c).resolver = some u := by
    rw [setValue, cell_modifyCell_self]
    exact hu
  have ht' : ((w.setValue c .unset).unitStatus? u).any Status.isTerminal = true := ht
  unfold reset
  dsimp only
  rw [hcleared]
  dsimp only
  rw [if_pos ht']
  rfl

end World

end Attribution.Engine
