import Attribution.Attribute.Slot
import Attribution.Proofs.Reference.Constant
import Attribution.Proofs.Reference.Equation
import Attribution.Proofs.Reference.Shape
/-!
# The value of every attribute

All nodes of an outline with their sites, and the value of every attribute of every
node by recursion over the tree and by folding (`reference`). The attributes are
ordered so that the equation of each one asks only for those that come before it
(`Feeds`).
-/

namespace Attribution

open Engine

def Engine.Probe.isReady {α : Type} : Probe α → Bool
  | .ready _ => true
  | _ => false

namespace Outline

variable (o : Outline) (r : RuleProvider)

def subject : Subject :=
  ⟨Tree.ofOutline o, r⟩

def table : List (Site × Outline) :=
  o.sites (Tree.ofOutline o).constantOf (o.subject r) root

def valueAt (x : Site × Outline) : (a : Attribute) → a.Value
  | .reachable => x.1.reachable
  | .completes => (x.2.flow (Tree.ofOutline o).constantOf (o.subject r) x.1).completes
  | .breaks => (x.2.flow (Tree.ofOutline o).constantOf (o.subject r) x.1).breaks
  | .continues => (x.2.flow (Tree.ofOutline o).constantOf (o.subject r) x.1).continues
  | .propagated => (x.2.flow (Tree.ofOutline o).constantOf (o.subject r) x.1).propagated
  | .constant => (Tree.ofOutline o).constantOf x.1.id
  | .unreachable => x.1.unreachable
  | .raised => Flow.raisedBy (o.subject r) x.1.id

abbrev kids (x : Site × Outline) : List (Site × Outline) :=
  x.2.offspring (Tree.ofOutline o).constantOf (o.subject r) x.1

abbrev part (x : Site × Outline) : Part :=
  partAt (Tree.ofOutline o).constantOf (o.subject r) x

/-- The value of an attribute, without cells or an order of evaluation. -/
def reference (a : Attribute) (id : NodeId) : a.Value :=
  match (o.table r)[id]? with
  | some x => o.valueAt r x a
  | none => a.fallback

/-! ## The order of attributes -/

/-- Where an attribute stands among those of its phase: reachability where a
node begins, everything else where it ends, inner nodes first; exceptions from
the last node to the first. -/
def rankAt (x : Site × Outline) : Attribute → Nat × Nat
  | .reachable => (x.1.id, o.size + 1)
  | .unreachable => (x.1.id, o.size + 2)
  | .completes | .breaks | .continues => (x.1.id + x.2.size, o.size - x.1.id)
  | .propagated => (o.size - x.1.id, 0)
  | .raised | .constant => (0, 0)

def rank (a : Attribute) (id : NodeId) : Nat × Nat :=
  match (o.table r)[id]? with
  | some x => o.rankAt x a
  | none => (0, 0)

def Precedes (m n : Nat × Nat) : Prop :=
  m.1 < n.1 ∨ m.1 = n.1 ∧ m.2 < n.2

/-- Attribute `a` of node `id` may be read on the way to attribute `b` of node
`m`. Only constants may depend on each other in a circle. -/
def Feeds (b : Attribute) (m : NodeId) (a : Attribute) (id : NodeId) : Prop :=
  id < o.size ∧ (a.phase < b.phase ∨
    (a.phase = b.phase ∧ b ≠ .constant ∧ Precedes (o.rank r a id) (o.rank r b m)) ∨
    (a = .constant ∧ b = .constant ∧ (Tree.ofOutline o).Depends m id))

/-- An answer that agrees with the reference. Whatever is read in a circle or
from a failure has no value. -/
def Exact (a : Attribute) (id : NodeId) (p : Probe a.Value) : Prop :=
  p.value = o.reference r a id ∧ (p.isReady = false → o.reference r a id = a.sentinel)

/-- The terms on which the equation of attribute `a` of node `id` is solved. When
the answers are not known to be exact, nothing is said about the value. -/
def terms (exact : Prop) (a : Attribute) (id : NodeId) : Terms where
  asks := o.Feeds r a id
  answers b m p := exact → o.Exact r b m p
  fails := exact → o.reference r a id = a.sentinel

variable {o r} {x y : Site × Outline}

@[simp] theorem kind_part (x : Site × Outline) : (o.part r x).kind = x.2.kind :=
  rfl

theorem mem_table_of_mem_offspring (hy : y ∈ o.table r)
    (hx : x ∈ o.kids r y) : x ∈ o.table r :=
  mem_sites_of_mem_offspring hy hx

theorem reference_of_mem (hx : x ∈ o.table r) (a : Attribute) :
    o.reference r a x.1.id = o.valueAt r x a := by
  rw [reference, show (o.table r)[x.1.id]? = some x from Tree.getElem?_sites_root hx]

theorem rank_of_mem (hx : x ∈ o.table r) (a : Attribute) :
    o.rank r a x.1.id = o.rankAt x a := by
  rw [rank, show (o.table r)[x.1.id]? = some x from Tree.getElem?_sites_root hx]

theorem id_lt_of_mem_table (hx : x ∈ o.table r) : x.1.id < o.size := by
  have h := Tree.id_lt_size hx
  rw [Tree.size_ofOutline] at h
  exact h

theorem exists_mem_table (r : RuleProvider) {id : Nat} (h : id < o.size) :
    ∃ x ∈ o.table r, x.1.id = id := by
  rw [← Tree.size_ofOutline] at h
  exact Tree.exists_site (Tree.ofOutline o).constantOf (o.subject r) h

theorem node?_subject (hx : x ∈ o.table r) :
    (o.subject r).tree.node? x.1.id = some (nodeAt x) :=
  Tree.node?_of_mem hx

theorem end_le_of_mem_offspring {κ : NodeId → Option Const} {s : Subject}
    (hx : x ∈ y.2.offspring κ s y.1) : x.1.id + x.2.size ≤ y.1.id + y.2.size := by
  have hmem : x ∈ y.2.sites κ s y.1 := mem_sites_of_mem_offspring (self_mem_sites _ _) hx
  have hpos := x.2.size_pos
  have hle : x.1.id ≤ x.1.id + x.2.size - 1 := by omega
  obtain ⟨z, hz, hid⟩ := exists_of_id (κ := κ) (s := s) (o := x.2) hle (by omega)
  have hlt := id_lt_of_mem (sites_subset y.2 hmem hz)
  omega

/-- Every node but the root has a parent, and its site follows from the parent's
and from the child to its left. -/
theorem exists_parent (hx : x ∈ o.table r) : x = (root, o) ∨ ∃ y ∈ o.table r, ∃ i before,
    (o.kids r y)[i]? = some x ∧
    x.1 = y.1.child (Tree.ofOutline o).constantOf y.2 i x.1.id before x.2.kind ∧
    (i = 0 → before = none) ∧ ∀ j, i = j + 1 → ∃ z,
      (o.kids r y)[j]? = some z ∧
      before = some (z.1, z.2.flow (Tree.ofOutline o).constantOf (o.subject r) z.1) ∧
      x.1.id = z.1.id + z.2.size := by
  rcases eq_root_or_mem_offspring o hx with h | ⟨y, hy, hmem⟩
  · exact .inl h
  · obtain ⟨i, hi⟩ := List.mem_iff_getElem?.1 hmem
    obtain ⟨before, hsite, hzero, hsucc⟩ := childSites_get y.2.children hi
    rw [Nat.zero_add] at hsite
    exact .inr ⟨y, hy, i, before, hi, hsite, fun h => (hzero h).1, hsucc⟩

theorem map_snd_kids (x : Site × Outline) : (o.kids r x).map Prod.snd = x.2.children :=
  map_snd_childSites _ _ _ _

theorem kids_eq_pair {u v : Outline} (h : x.2.children = [u, v]) : ∃ y z, o.kids r x = [y, z] := by
  have hlen := congrArg List.length ((map_snd_kids (o := o) (r := r) x).trans h)
  rw [List.length_map] at hlen
  exact List.length_eq_two.1 hlen

theorem kids_eq_singleton {u : Outline} (h : x.2.children = [u]) : ∃ y, o.kids r x = [y] := by
  have hlen := congrArg List.length ((map_snd_kids (o := o) (r := r) x).trans h)
  rw [List.length_map] at hlen
  exact List.length_eq_one_iff.1 hlen

theorem parent?_root (hx : (root, o) ∈ o.table r) :
    (o.subject r).tree.parent? (root, o).1.id = none := by
  rw [Tree.parent?, node?_subject hx]
  rfl

theorem parent?_of_mem (hx : x ∈ o.table r) {i : Nat}
    (hi : (o.kids r y)[i]? = some x) :
    (o.subject r).tree.parent? x.1.id = some y.1.id := by
  rw [Tree.parent?, node?_subject hx]
  exact (of_mem_offspring hi).1

theorem children_nodeAt (κ : NodeId → Option Const) (s : Subject) (y : Site × Outline) :
    (nodeAt y).children = (y.2.offspring κ s y.1).map fun z => z.1.id :=
  (map_id_childSites _ _ _ _).symm

theorem children_get {κ : NodeId → Option Const} {s : Subject} {i : Nat} {z : Site × Outline}
    (hz : (y.2.offspring κ s y.1)[i]? = some z) : (nodeAt y).children[i]? = some z.1.id := by
  rw [children_nodeAt κ s, List.getElem?_map, hz]
  rfl

theorem lt_of_mem_offspring {κ : NodeId → Option Const} {s : Subject}
    (hx : x ∈ y.2.offspring κ s y.1) :
    y.1.id < x.1.id := by
  obtain ⟨i, hi⟩ := List.mem_iff_getElem?.1 hx
  exact (of_mem_offspring hi).2.2.2.2

theorem feeds_of_phase (hx : x ∈ o.table r) {a b : Attribute} (h : a.phase < b.phase)
    (m : NodeId) : o.Feeds r b m a x.1.id :=
  ⟨id_lt_of_mem_table hx, .inl h⟩

theorem feeds_of_precedes (hx : x ∈ o.table r) (hy : y ∈ o.table r) {a b : Attribute}
    (hp : a.phase = b.phase) (hb : b ≠ .constant) (h : Precedes (o.rankAt x a) (o.rankAt y b)) :
    o.Feeds r b y.1.id a x.1.id := by
  refine ⟨id_lt_of_mem_table hx, .inr (.inl ⟨hp, hb, ?_⟩)⟩
  rw [rank_of_mem hx, rank_of_mem hy]
  exact h

/-- What is known of a node at its end depends on whether it begins. -/
theorem feeds_reachable (hx : x ∈ o.table r) {b : Attribute}
    (hb : b = .completes ∨ b = .breaks ∨ b = .continues ∨ b = .unreachable) :
    o.Feeds r b x.1.id .reachable x.1.id := by
  have hpos := x.2.size_pos
  have hexit : x.1.id < x.1.id + x.2.size := by omega
  rcases hb with rfl | rfl | rfl | rfl
  · exact feeds_of_precedes hx hx rfl (by decide) (.inl hexit)
  · exact feeds_of_precedes hx hx rfl (by decide) (.inl hexit)
  · exact feeds_of_precedes hx hx rfl (by decide) (.inl hexit)
  · exact feeds_of_precedes hx hx rfl (by decide) (.inr ⟨rfl, Nat.lt_succ_self _⟩)

/-- What is known of a node at its end depends on what is known of its children
at theirs. -/
theorem feeds_child (hy : y ∈ o.table r)
    (hx : x ∈ o.kids r y) {a b : Attribute}
    (ha : a = .completes ∨ a = .breaks ∨ a = .continues)
    (hb : b = .completes ∨ b = .breaks ∨ b = .continues) : o.Feeds r b y.1.id a x.1.id := by
  have hxt := mem_table_of_mem_offspring hy hx
  have hlt := lt_of_mem_offspring hx
  have hend := end_le_of_mem_offspring hx
  have hsize := id_lt_of_mem_table hxt
  rcases ha with rfl | rfl | rfl <;> rcases hb with rfl | rfl | rfl
  all_goals
    refine feeds_of_precedes hxt hy rfl (by decide) ?_
    simp only [Precedes, rankAt]
    omega

theorem feeds_parent (hy : y ∈ o.table r)
    (hx : x ∈ o.kids r y) {b : Attribute}
    (hb : b = .reachable ∨ b = .unreachable) : o.Feeds r b x.1.id .reachable y.1.id := by
  have hxt := mem_table_of_mem_offspring hy hx
  have hlt := lt_of_mem_offspring hx
  rcases hb with rfl | rfl
  all_goals
    refine feeds_of_precedes hy hxt rfl (by decide) ?_
    simp only [Precedes, rankAt]
    omega

theorem feeds_before (hx : x ∈ o.table r) (hy : y ∈ o.table r)
    (hid : x.1.id = y.1.id + y.2.size) :
    o.Feeds r .reachable x.1.id .completes y.1.id ∧
      o.Feeds r .unreachable x.1.id .reachable y.1.id := by
  refine ⟨feeds_of_precedes hy hx rfl (by decide) ?_, feeds_of_precedes hy hx rfl (by decide) ?_⟩
  · simp only [Precedes, rankAt]
    omega
  · simp only [Precedes, rankAt]
    omega

theorem feeds_propagated (hy : y ∈ o.table r)
    (hx : x ∈ o.kids r y) :
    o.Feeds r .propagated y.1.id .propagated x.1.id := by
  have hxt := mem_table_of_mem_offspring hy hx
  have hlt := lt_of_mem_offspring hx
  have hsize := id_lt_of_mem_table hxt
  refine feeds_of_precedes hxt hy rfl (by decide) ?_
  simp only [Precedes, rankAt]
  omega

theorem feeds_raised (hx : x ∈ o.table r) : o.Feeds r .propagated x.1.id .raised x.1.id := by
  have hsize := id_lt_of_mem_table hx
  refine feeds_of_precedes hx hx rfl (by decide) ?_
  simp only [Precedes, rankAt]
  omega

end Outline

end Attribution
