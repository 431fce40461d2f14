import Std.Data.TreeMap
/-!
# Rolls

A list of entries numbered from zero that grows only at its end. Keeping an
earlier version of a roll costs nothing when a later one is made from it.
-/

namespace Attribution.Engine

structure Roll (α : Type) where
  entries : Std.TreeMap Nat α
  size : Nat
  mem_iff : ∀ i, i ∈ entries ↔ i < size

namespace Roll

variable {α : Type}

def empty : Roll α :=
  ⟨{}, 0, by simp⟩

instance : Inhabited (Roll α) := ⟨empty⟩

def get? (r : Roll α) (i : Nat) : Option α :=
  r.entries[i]?

def push (r : Roll α) (a : α) : Roll α :=
  ⟨r.entries.insert r.size a, r.size + 1, fun i => by
    have h := r.mem_iff i
    simp only [Std.TreeMap.mem_insert, Nat.compare_eq_eq, h]
    omega⟩

/-- Replaces the entry with a number, if there is one. -/
def set (r : Roll α) (i : Nat) (a : α) : Roll α :=
  if h : i < r.size then
    ⟨r.entries.insert i a, r.size, fun j => by
      have hj := r.mem_iff j
      simp only [Std.TreeMap.mem_insert, Nat.compare_eq_eq, hj]
      omega⟩
  else r

@[simp] theorem size_push (r : Roll α) (a : α) : (r.push a).size = r.size + 1 :=
  rfl

@[simp] theorem size_set (r : Roll α) (i : Nat) (a : α) : (r.set i a).size = r.size := by
  unfold set
  split <;> rfl

@[simp] theorem get?_empty (i : Nat) : (empty : Roll α).get? i = none := by
  simp [empty, get?]

theorem get?_eq_none_iff (r : Roll α) (i : Nat) : r.get? i = none ↔ r.size ≤ i := by
  rw [get?, ← Option.not_isSome_iff_eq_none, Std.TreeMap.isSome_getElem?_iff_mem, r.mem_iff]
  omega

theorem get?_push (r : Roll α) (a : α) (i : Nat) :
    (r.push a).get? i = if r.size = i then some a else r.get? i := by
  simp only [get?, push, Std.TreeMap.getElem?_insert, Nat.compare_eq_eq]

theorem get?_set (r : Roll α) (i j : Nat) (a : α) :
    (r.set i a).get? j = if i = j ∧ i < r.size then some a else r.get? j := by
  unfold set
  split
  · rename_i h
    simp only [get?, Std.TreeMap.getElem?_insert, Nat.compare_eq_eq, h, and_true]
  · rename_i h
    simp only [h, and_false, if_false]

end Roll

end Attribution.Engine
