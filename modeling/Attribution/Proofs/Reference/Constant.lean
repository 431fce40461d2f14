import Attribution.Tree
import Mathlib.Data.Finset.Card
import Mathlib.Logic.Relation
/-!
# Constants by folding

A constant depends on its operands: a declaration on its initializer, a name on
the declaration it is bound to, an operator on what it is applied to. A node that
can reach a cycle of this graph has no constant; every other node has the value
that results from folding its operands. `constantOf` computes both, following
dependencies for as many steps as there are nodes.
-/

namespace Attribution.Tree

variable (t : Tree)

/-- The nodes whose constants the constant of a node is made of. -/
def operands (id : NodeId) : List NodeId :=
  match t.node? id with
  | none => []
  | some n =>
    match n.kind with
    | .constDecl _ => n.children.take 1
    | .name _ => (t.binding? id).toList
    | .unary _ => n.children.take 1
    | .binary _ => n.children.take 2
    | _ => []

def Depends (id dep : NodeId) : Prop :=
  dep ∈ t.operands id

def ReachesCycle (id : NodeId) : Prop :=
  ∃ m, Relation.ReflTransGen t.Depends id m ∧ Relation.TransGen t.Depends m m

def foldNode (κ : NodeId → Option Const) (id : NodeId) : Option Const :=
  match t.node? id with
  | none => none
  | some n =>
    match n.kind, t.operands id with
    | .bool b, _ => some (.bool b)
    | .int i, _ => some (.int i)
    | .constDecl _, [x] | .name _, [x] => κ x
    | .unary op, [x] => (κ x).bind op.fold?
    | .binary op, [x, y] => (κ x).bind fun a => (κ y).bind fun b => op.fold? a b
    | _, _ => none

/-- The value of a node whose operands fold as well. -/
inductive Folds : NodeId → Option Const → Prop where
  | node (id : NodeId) (κ : NodeId → Option Const)
    (h : ∀ dep, t.Depends id dep → Folds dep (κ dep)) : Folds id (t.foldNode κ id)

/-- The constant of a node, as far as it is found in a number of steps. -/
def constantWithin : Nat → NodeId → Option Const
  | 0, _ => none
  | steps + 1, id => t.foldNode (constantWithin steps) id

def constantOf (id : NodeId) : Option Const :=
  t.constantWithin (t.size + 1) id

variable {t}

theorem foldNode_congr {κ κ' : NodeId → Option Const} {id : NodeId}
    (h : ∀ dep, t.Depends id dep → κ dep = κ' dep) : t.foldNode κ id = t.foldNode κ' id := by
  unfold Depends at h
  unfold foldNode
  split
  · rfl
  · split
    · rfl
    · rfl
    · rename_i x _ hx
      exact h x (by rw [hx]; exact List.mem_singleton.2 rfl)
    · rename_i x _ hx
      exact h x (by rw [hx]; exact List.mem_singleton.2 rfl)
    · rename_i x _ hx
      rw [h x (by rw [hx]; exact List.mem_singleton.2 rfl)]
    · rename_i x y _ hx
      rw [h x (by rw [hx]; simp), h y (by rw [hx]; simp)]
    · rfl

theorem foldNode_eq_none {κ : NodeId → Option Const} {id dep : NodeId} (hd : t.Depends id dep)
    (h : κ dep = none) : t.foldNode κ id = none := by
  unfold Depends at hd
  unfold foldNode
  split
  · rfl
  · rename_i n hn
    split
    · rename_i hk
      rw [operands, hn] at hd
      simp [hk] at hd
    · rename_i hk
      rw [operands, hn] at hd
      simp [hk] at hd
    · rename_i hx
      rw [hx] at hd
      rw [← List.mem_singleton.1 hd, h]
    · rename_i hx
      rw [hx] at hd
      rw [← List.mem_singleton.1 hd, h]
    · rename_i hx
      rw [hx] at hd
      rw [← List.mem_singleton.1 hd, h]
      rfl
    · rename_i x y _ hx
      rw [hx] at hd
      rcases List.mem_pair.1 hd with rfl | rfl
      · rw [h]
        rfl
      · rw [h]
        cases κ x with
        | none => rfl
        | some a => rfl
    · rfl

theorem Folds.unique {id : NodeId} {v w : Option Const} (hv : t.Folds id v) (hw : t.Folds id w) :
    v = w := by
  induction hv generalizing w with
  | node id κ h ih =>
    cases hw with
    | node _ κ' h' => exact foldNode_congr fun dep hd => ih dep hd (h' dep hd)

/-! ## Cycles -/

theorem ReachesCycle.of_depends {id dep : NodeId} (hd : t.Depends id dep)
    (h : t.ReachesCycle dep) : t.ReachesCycle id := by
  obtain ⟨m, hm, hc⟩ := h
  exact ⟨m, .head hd hm, hc⟩

theorem ReachesCycle.exists_depends {id : NodeId} (h : t.ReachesCycle id) :
    ∃ dep, t.Depends id dep ∧ t.ReachesCycle dep := by
  obtain ⟨m, hm, hc⟩ := h
  rcases Relation.ReflTransGen.cases_head hm with rfl | ⟨dep, hd, hm⟩
  · obtain ⟨dep, hd, hm⟩ := Relation.TransGen.head'_iff.1 hc
    exact ⟨dep, hd, id, hm, hc⟩
  · exact ⟨dep, hd, m, hm, hc⟩

theorem constantWithin_of_reachesCycle {id : NodeId} (h : t.ReachesCycle id) (steps : Nat) :
    t.constantWithin steps id = none := by
  induction steps generalizing id with
  | zero => rfl
  | succ steps ih =>
    obtain ⟨dep, hd, hdep⟩ := h.exists_depends
    exact foldNode_eq_none hd (ih hdep)

theorem folds_of_size_le {id : Nat} (h : t.size ≤ id) (steps : Nat) :
    t.Folds id (t.constantWithin steps id) := by
  have hnode : t.node? id = none := Array.getElem?_eq_none h
  have hnone : ∀ κ, t.foldNode κ id = none := fun κ => by rw [foldNode, hnode]
  have hconst : t.constantWithin steps id = none := by
    cases steps with
    | zero => rfl
    | succ steps => exact hnone _
  rw [hconst, ← hnone fun _ => none]
  refine .node id _ fun dep hd => ?_
  rw [Depends, operands, hnode] at hd
  cases hd

open Classical in
private noncomputable def reached (t : Tree) (id : NodeId) : Finset Nat :=
  (Finset.range t.size).filter fun m => Relation.TransGen t.Depends id m

private theorem card_reached_lt {id dep : NodeId} (hd : t.Depends id dep) (hlt : dep < t.size)
    (h : ¬t.ReachesCycle id) : (t.reached dep).card < (t.reached id).card := by
  classical
  apply Finset.card_lt_card
  rw [Finset.ssubset_iff_of_subset]
  · refine ⟨dep, ?_, fun hmem => h ?_⟩
    · exact Finset.mem_filter.2 ⟨Finset.mem_range.2 hlt, .single hd⟩
    · exact ⟨dep, .single hd, (Finset.mem_filter.1 hmem).2⟩
  · intro m hm
    obtain ⟨hr, hm⟩ := Finset.mem_filter.1 hm
    exact Finset.mem_filter.2 ⟨hr, .head hd hm⟩

/-- Without cycles, as many steps suffice as there are nodes to be reached. -/
private theorem folds_constantWithin (steps : Nat) : ∀ {id : NodeId},
    (t.reached id).card < steps → ¬t.ReachesCycle id → t.Folds id (t.constantWithin steps id) := by
  induction steps with
  | zero =>
    intro id hlt
    omega
  | succ steps ih =>
    intro id hlt hacyclic
    refine .node id _ fun dep hd => ?_
    rcases Nat.lt_or_ge dep t.size with hdep | hdep
    · have hcard := card_reached_lt hd hdep hacyclic
      exact ih (by omega) fun h => hacyclic (.of_depends hd h)
    · exact folds_of_size_le hdep steps

theorem constantOf_of_reachesCycle {id : NodeId} (h : t.ReachesCycle id) :
    t.constantOf id = none :=
  constantWithin_of_reachesCycle h _

theorem folds_constantOf {id : NodeId} (h : ¬t.ReachesCycle id) :
    t.Folds id (t.constantOf id) := by
  classical
  apply folds_constantWithin _ _ h
  have hcard : (t.reached id).card ≤ (Finset.range t.size).card :=
    Finset.card_le_card (Finset.filter_subset _ _)
  rw [Finset.card_range] at hcard
  omega

/-- The constant of a node follows from those of its operands, cycle or not. -/
theorem constantOf_eq (id : NodeId) : t.constantOf id = t.foldNode t.constantOf id := by
  by_cases h : t.ReachesCycle id
  · obtain ⟨dep, hd, hdep⟩ := h.exists_depends
    rw [constantOf_of_reachesCycle h, foldNode_eq_none hd (constantOf_of_reachesCycle hdep)]
  · refine (folds_constantOf h).unique (.node id _ fun dep hd => ?_)
    exact folds_constantOf fun hdep => h (.of_depends hd hdep)

end Attribution.Tree
