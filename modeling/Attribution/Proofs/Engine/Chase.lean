import Mathlib.Data.List.Nodup
import Mathlib.Data.List.Perm.Subperm
import Mathlib.Data.Nat.Find
import Attribution.Engine.Scheduler
/-!
# Following the list of waits

From a unit to whoever runs it, and from there to the unit that is waited for: such a walk
may end, or go round forever. The search for a unit of the caller takes one turn more than
the list of waits is long. That is enough: until the walk comes to the caller it leaves no
evaluator twice, and each that it leaves is on the list (`Meets.le_length`). So the search
finds a unit of the caller if the walk ever meets one (`waitsOn?_complete`).
-/

namespace Attribution.Engine.Scheduler

variable {ρ : Type}

def next? (s : Scheduler ρ) (id : UnitId) : Option UnitId :=
  (s.owner? id).bind s.awaited?

/-- The unit after so many steps along the list of waits, if the walk is that long. -/
def walk (s : Scheduler ρ) : Nat → UnitId → Option UnitId
  | 0, id => some id
  | n + 1, id => (s.next? id).bind (s.walk n)

/-- The walk from a unit first meets a unit of the caller after `n` steps. -/
structure Meets (s : Scheduler ρ) (caller : EvaluatorId) (n : Nat) (id r : UnitId) : Prop where
  walks : s.walk n id = some r
  owned : s.owner? r = some caller
  first : ∀ k < n, ∀ u, s.walk k id = some u → s.owner? u ≠ some caller

variable {s : Scheduler ρ} {caller : EvaluatorId} {id r : UnitId}

theorem walk_add (m n : Nat) (id : UnitId) :
    s.walk (m + n) id = (s.walk m id).bind (s.walk n) := by
  induction m generalizing id with
  | zero =>
    rw [Nat.zero_add]
    rfl
  | succ m ih =>
    rw [Nat.succ_add, walk, walk, Option.bind_assoc]
    exact Option.bind_congr fun next _ => ih next

theorem walk_succ (n : Nat) (id : UnitId) :
    s.walk (n + 1) id = ((s.walk n id).bind s.owner?).bind s.awaited? := by
  have hone : s.walk 1 = s.next? := funext fun u => Option.bind_fun_some _
  rw [walk_add, hone, Option.bind_assoc]
  rfl

theorem mem_keys_of_awaited? {j : EvaluatorId} {id : UnitId} (h : s.awaited? j = some id) :
    j ∈ s.waiting.map Prod.fst := by
  obtain ⟨before, after, hsplit, -⟩ := List.lookup_eq_some_iff.1 h
  rw [hsplit]
  simp

theorem exists_meets {n : Nat} (hwalk : s.walk n id = some r) (howner : s.owner? r = some caller) :
    ∃ n r, s.Meets caller n id r := by
  classical
  have h : ∃ n r, s.walk n id = some r ∧ s.owner? r = some caller := ⟨n, r, hwalk, howner⟩
  obtain ⟨r, hr, ho⟩ := Nat.find_spec h
  exact ⟨Nat.find h, r, hr, ho, fun k hk u hu hown => Nat.find_min h hk ⟨u, hu, hown⟩⟩

namespace Meets

variable {n : Nat}

/-- Until it comes to the caller, the walk leaves no evaluator twice. -/
theorem runner_inj (h : s.Meets caller n id r) {i k : Nat} (hik : i < k) (hkn : k < n) :
    (s.walk i id).bind s.owner? ≠ (s.walk k id).bind s.owner? := by
  intro heq
  -- Otherwise it would have come to the caller a round earlier.
  have hnext : s.walk (i + 1) id = s.walk (k + 1) id := by
    rw [walk_succ, walk_succ, heq]
  have hwalk : s.walk (i + 1 + (n - (k + 1))) id = some r := by
    rw [walk_add, hnext, ← walk_add, Nat.add_sub_cancel' hkn]
    exact h.walks
  exact h.first _ (by omega) r hwalk h.owned

theorem runner_mem (h : s.Meets caller n id r) {k : Nat} (hk : k < n) :
    (s.walk k id).bind s.owner? ∈ (s.waiting.map Prod.fst).map some := by
  have hwalk := h.walks
  rw [← Nat.add_sub_cancel' (Nat.succ_le_of_lt hk), walk_add] at hwalk
  obtain ⟨u, hu, -⟩ := Option.bind_eq_some_iff.1 hwalk
  rw [Nat.succ_eq_add_one, walk_succ] at hu
  obtain ⟨j, hj, hawaited⟩ := Option.bind_eq_some_iff.1 hu
  rw [hj]
  exact List.mem_map_of_mem (mem_keys_of_awaited? hawaited)

theorem le_length (h : s.Meets caller n id r) : n ≤ s.waiting.length := by
  have hnodup : ((List.range n).map fun k => (s.walk k id).bind s.owner?).Nodup := by
    refine List.nodup_range.map_on fun i hi k hk heq => ?_
    rw [List.mem_range] at hi hk
    obtain hlt | rfl | hlt := Nat.lt_trichotomy i k
    · exact absurd heq (h.runner_inj hlt hk)
    · rfl
    · exact absurd heq.symm (h.runner_inj hlt hi)
  have hlisted : ((List.range n).map fun k => (s.walk k id).bind s.owner?) ⊆
      (s.waiting.map Prod.fst).map some := by
    intro j hj
    obtain ⟨k, hk, rfl⟩ := List.mem_map.1 hj
    exact h.runner_mem (List.mem_range.1 hk)
  have hlen := (hnodup.subperm hlisted).length_le
  rwa [List.length_map, List.length_range, List.length_map, List.length_map] at hlen

end Meets

theorem meets_zero : s.Meets caller 0 id r ↔ id = r ∧ s.owner? id = some caller := by
  constructor
  · intro h
    obtain rfl := Option.some.inj h.walks
    exact ⟨rfl, h.owned⟩
  · rintro ⟨rfl, howner⟩
    exact ⟨rfl, howner, fun k hk => absurd hk (Nat.not_lt_zero k)⟩

theorem meets_succ {n : Nat} : s.Meets caller (n + 1) id r ↔
    s.owner? id ≠ some caller ∧ ∃ next, s.next? id = some next ∧ s.Meets caller n next r := by
  constructor
  · intro h
    obtain ⟨next, hnext, hwalk⟩ := Option.bind_eq_some_iff.1 h.walks
    refine ⟨h.first 0 (Nat.succ_pos n) id rfl, next, hnext, hwalk, h.owned, fun k hk u hu => ?_⟩
    exact h.first (k + 1) (Nat.succ_lt_succ hk) u (Option.bind_eq_some_iff.2 ⟨next, hnext, hu⟩)
  · rintro ⟨hne, next, hnext, h⟩
    refine ⟨Option.bind_eq_some_iff.2 ⟨next, hnext, h.walks⟩, h.owned, fun k hk u hu => ?_⟩
    cases k with
    | zero =>
      obtain rfl := Option.some.inj hu
      exact hne
    | succ k =>
      obtain ⟨next', hnext', hu⟩ := Option.bind_eq_some_iff.1 hu
      obtain rfl := Option.some.inj (hnext.symm.trans hnext')
      exact h.first k (Nat.lt_of_succ_lt_succ hk) u hu

/-- The search finds what the walk meets first, if there are turns enough. -/
theorem chase_eq_some_iff (turns : Nat) (id : UnitId) :
    s.chase caller turns id = some r ↔ ∃ n < turns, s.Meets caller n id r := by
  induction turns generalizing id with
  | zero =>
    constructor
    · exact nofun
    · rintro ⟨n, hn, -⟩
      exact absurd hn (Nat.not_lt_zero n)
  | succ turns ih =>
    have hstep : s.chase caller (turns + 1) id =
        if s.owner? id = some caller then some id else (s.next? id).bind (s.chase caller turns) := by
      rw [chase, next?]
      cases howner : s.owner? id with
      | none => rfl
      | some owner =>
        simp only [Option.some.injEq]
        split
        · rfl
        · cases hawaited : s.awaited? owner with
          | none => simp [hawaited]
          | some next => simp [hawaited]
    rw [hstep]
    split
    · rename_i hown
      constructor
      · intro h
        exact ⟨0, Nat.succ_pos turns, meets_zero.2 ⟨Option.some.inj h, hown⟩⟩
      · rintro ⟨n, -, h⟩
        cases n with
        | zero => rw [(meets_zero.1 h).1]
        | succ n => exact absurd hown (meets_succ.1 h).1
    · rename_i hother
      constructor
      · intro h
        obtain ⟨next, hnext, h⟩ := Option.bind_eq_some_iff.1 h
        obtain ⟨n, hn, h⟩ := (ih next).1 h
        exact ⟨n + 1, Nat.succ_lt_succ hn, meets_succ.2 ⟨hother, next, hnext, h⟩⟩
      · rintro ⟨n, hn, h⟩
        cases n with
        | zero => exact absurd (meets_zero.1 h).2 hother
        | succ n =>
          obtain ⟨-, next, hnext, h⟩ := meets_succ.1 h
          refine Option.bind_eq_some_iff.2 ⟨next, hnext, (ih next).2 ⟨n, ?_, h⟩⟩
          exact Nat.lt_of_succ_lt_succ hn

theorem waitsOn?_eq_some_iff : s.waitsOn? caller id = some r ↔ ∃ n, s.Meets caller n id r := by
  rw [waitsOn?, chase_eq_some_iff]
  constructor
  · rintro ⟨n, -, h⟩
    exact ⟨n, h⟩
  · rintro ⟨n, h⟩
    exact ⟨n, Nat.lt_succ_of_le h.le_length, h⟩

/-- **The search is complete.** It finds a unit of the caller if and only if the walk meets one
after any number of steps, and what it finds is the first one. -/
theorem waitsOn?_complete (s : Scheduler ρ) (caller : EvaluatorId) (id : UnitId) :
    ((∃ r, s.waitsOn? caller id = some r) ↔
      ∃ n r, s.walk n id = some r ∧ s.owner? r = some caller) ∧
    ∀ r, s.waitsOn? caller id = some r ↔ ∃ n, s.walk n id = some r ∧ s.owner? r = some caller ∧
      ∀ k < n, ∀ u, s.walk k id = some u → s.owner? u ≠ some caller := by
  refine ⟨⟨?_, ?_⟩, fun r => ?_⟩
  · rintro ⟨r, h⟩
    obtain ⟨n, h⟩ := waitsOn?_eq_some_iff.1 h
    exact ⟨n, r, h.walks, h.owned⟩
  · rintro ⟨n, r, hwalk, howner⟩
    obtain ⟨k, q, h⟩ := exists_meets hwalk howner
    exact ⟨q, waitsOn?_eq_some_iff.2 ⟨k, h⟩⟩
  · rw [waitsOn?_eq_some_iff]
    constructor
    · rintro ⟨n, h⟩
      exact ⟨n, h.walks, h.owned, h.first⟩
    · rintro ⟨n, hwalk, howner, hfirst⟩
      exact ⟨n, hwalk, howner, hfirst⟩

end Attribution.Engine.Scheduler
