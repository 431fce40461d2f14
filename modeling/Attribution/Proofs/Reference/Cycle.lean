import Attribution.Proofs.Reference.Subtree
import Attribution.Proofs.Reference.Solution
import Mathlib.Data.Set.Card
/-!
# Circular constants

Constants are entangled if each of them depends on the other; where one of them is on
a cycle, all of them are. A component is a ring if no node of it has two operands in it.
An expression is an operand of its parent alone, so a cycle runs through the declaration
around each of its nodes (`exists_declared`), which is the one that a report of the cycle
names. The equation of a constant reads its operands one by one, and fails as often as
such a read has closed a circle (`follows_constant`).
-/

namespace Attribution

open Engine

namespace Tree

variable (t : Tree)

def OnCycle (id : NodeId) : Prop :=
  Relation.TransGen t.Depends id id

/-- The two nodes are in the same component. -/
def Entangled (id m : NodeId) : Prop :=
  Relation.ReflTransGen t.Depends id m ∧ Relation.ReflTransGen t.Depends m id

def component (id : NodeId) : Set NodeId :=
  { m | t.Entangled id m }

/-- The components that contain a cycle. -/
def cyclicComponents : Set (Set NodeId) :=
  t.component '' { id | t.OnCycle id }

/-- In the component of the node, there is one way on from each node. -/
def Ring (id : NodeId) : Prop :=
  ∀ m, t.Entangled id m → ∀ dep dep', t.Depends m dep → t.Depends m dep' →
    t.Entangled id dep → t.Entangled id dep' → dep = dep'

def declared? (id : NodeId) : Option String :=
  match t.node? id with
  | some ⟨.constDecl name, _, _, _, _⟩ => some name
  | _ => none

variable {t} {id m k : NodeId}

/-! ## Components -/

theorem Depends.exists_node {dep : NodeId} (h : t.Depends id dep) : ∃ n, t.node? id = some n := by
  cases hn : t.node? id with
  | none =>
    rw [Depends, operands, hn] at h
    cases h
  | some n => exact ⟨n, rfl⟩

theorem Depends.lt_size {dep : NodeId} (h : t.Depends id dep) : id < t.size := by
  obtain ⟨n, hn⟩ := h.exists_node
  exact (Array.getElem?_eq_some_iff.1 hn).1

theorem Entangled.refl (id : NodeId) : t.Entangled id id :=
  ⟨.refl, .refl⟩

theorem Entangled.symm (h : t.Entangled id m) : t.Entangled m id :=
  ⟨h.2, h.1⟩

theorem Entangled.trans (h : t.Entangled id m) (h' : t.Entangled m k) : t.Entangled id k :=
  ⟨h.1.trans h'.1, h'.2.trans h.2⟩

theorem component_eq_iff : t.component id = t.component m ↔ t.Entangled id m := by
  constructor
  · intro h
    have hm : m ∈ t.component m := Entangled.refl m
    rw [← h] at hm
    exact hm
  · intro h
    ext k
    exact ⟨h.symm.trans, h.trans⟩

theorem OnCycle.of_entangled (hid : t.OnCycle id) (h : t.Entangled id m) : t.OnCycle m :=
  .trans_right h.2 (hid.trans_left h.1)

theorem OnCycle.exists_depends (h : t.OnCycle id) :
    ∃ dep, t.Depends id dep ∧ t.Entangled id dep := by
  obtain ⟨dep, hd, hback⟩ := Relation.TransGen.head'_iff.1 h
  exact ⟨dep, hd, .single hd, hback⟩

theorem OnCycle.exists_reader (h : t.OnCycle id) : ∃ m, t.Depends m id ∧ t.Entangled id m := by
  obtain ⟨m, hm, hd⟩ := Relation.TransGen.tail'_iff.1 h
  exact ⟨m, hd, hm, .single hd⟩

theorem Ring.of_entangled (hid : t.Ring id) (h : t.Entangled id m) : t.Ring m :=
  fun k hk dep dep' hd hd' he he' =>
    hid k (h.trans hk) dep dep' hd hd' (h.trans he) (h.trans he')

/-- Whoever goes round a ring meets all of it. -/
theorem Ring.mem_of_closed (hid : t.Ring id) {S : NodeId → Prop} (hS : S id)
    (hnext : ∀ m, S m → t.Entangled id m → ∃ dep, S dep ∧ t.Depends m dep ∧ t.Entangled id dep)
    (h : t.Entangled id m) : S m := by
  obtain ⟨hto, hback⟩ := h
  induction hto with
  | refl => exact hS
  | @tail k m hk hd ih =>
    have hkback : Relation.ReflTransGen t.Depends k id := .head hd hback
    obtain ⟨dep, hdep, hd', he⟩ := hnext k (ih hkback) ⟨hk, hkback⟩
    rw [hid k ⟨hk, hkback⟩ m dep hd hd' ⟨hk.tail hd, hback⟩ he]
    exact hdep

/-- Where each node has one operand at most, all components are rings. -/
theorem Ring.of_operands (h : ∀ m < t.size, (t.operands m).length ≤ 1) (id : NodeId) :
    t.Ring id := by
  intro m _ dep dep' hd hd' _ _
  obtain ⟨i, hi, rfl⟩ := List.getElem_of_mem hd
  obtain ⟨j, hj, rfl⟩ := List.getElem_of_mem hd'
  have hle := h m hd.lt_size
  congr 1
  omega

/-! ## The number of components -/

section

variable {culprits : List NodeId}
  (hcover : ∀ id, t.OnCycle id → ∃ m ∈ culprits, t.Entangled id m)

include hcover

theorem cyclicComponents_subset : t.cyclicComponents ⊆ t.component '' culprits.toFinset := by
  rintro _ ⟨id, hid, rfl⟩
  obtain ⟨m, hm, he⟩ := hcover id hid
  exact ⟨m, List.mem_toFinset.2 hm, component_eq_iff.2 he.symm⟩

/-- Whoever has a node in each component with a cycle has as many nodes at least. -/
theorem ncard_cyclicComponents_le : t.cyclicComponents.ncard ≤ culprits.length := by
  calc t.cyclicComponents.ncard
      ≤ (t.component '' culprits.toFinset).ncard :=
        Set.ncard_le_ncard (cyclicComponents_subset hcover)
          (culprits.toFinset.finite_toSet.image _)
    _ ≤ (culprits.toFinset : Set NodeId).ncard := Set.ncard_image_le culprits.toFinset.finite_toSet
    _ = culprits.toFinset.card := Set.ncard_coe_finset _
    _ ≤ culprits.length := List.toFinset_card_le culprits

theorem ncard_cyclicComponents_eq (hnodup : culprits.Nodup) (hon : ∀ m ∈ culprits, t.OnCycle m)
    (hsingle : ∀ m ∈ culprits, ∀ k ∈ culprits, t.Entangled m k → k = m) :
    t.cyclicComponents.ncard = culprits.length := by
  have heq : t.cyclicComponents = t.component '' culprits.toFinset := by
    apply (cyclicComponents_subset hcover).antisymm
    rintro _ ⟨m, hm, rfl⟩
    exact ⟨m, hon m (List.mem_toFinset.1 hm), rfl⟩
  have hinj : Set.InjOn t.component culprits.toFinset := by
    intro m hm k hk hcomponent
    exact (hsingle m (List.mem_toFinset.1 hm) k (List.mem_toFinset.1 hk)
      (component_eq_iff.1 hcomponent)).symm
  rw [heq, hinj.ncard_image, Set.ncard_coe_finset,
    List.toFinset_card_of_nodup hnodup]

end

end Tree

/-! ## Declarations -/

namespace Outline

variable {o : Outline} {r : RuleProvider} {x : Site × Outline}

theorem declared?_of_binding? {id d : Nat} (h : (Tree.ofOutline o).binding? id = some d) :
    ∃ name, (Tree.ofOutline o).declared? d = some name := by
  unfold Tree.binding? at h
  split at h
  · obtain ⟨before, after, hdecl, -⟩ := List.lookup_eq_some_iff.1 h
    rename_i name _ _ _ _ _
    have hmem : (name, d) ∈ (Tree.ofOutline o).declarations := by
      rw [hdecl]
      simp
    obtain ⟨⟨n, i⟩, hi, heq⟩ := List.mem_filterMap.1 hmem
    split at heq
    · rename_i hpair
      cases hpair
      cases heq
      have hnode : (Tree.ofOutline o).node? d = _ :=
        List.getElem?_toArray.trans (List.mk_mem_zipIdx_iff_getElem?.1 hi)
      exact ⟨name, by rw [Tree.declared?, hnode]⟩
    · cases heq
  · cases h

theorem declared_or_kid_of_depends {id m : Nat} (h : (Tree.ofOutline o).Depends id m) :
    (∃ name, (Tree.ofOutline o).declared? m = some name) ∨
      ∃ y ∈ o.table r, y.1.id = id ∧ ∃ x ∈ o.kids r y, x.1.id = m := by
  have hlt := h.lt_size
  rw [Tree.size_ofOutline] at hlt
  obtain ⟨y, hy, rfl⟩ := exists_mem_table r hlt
  have hkid : m ∈ (o.kids r y).map (fun x => x.1.id) → ∃ x ∈ o.kids r y, x.1.id = m := by
    intro hm
    exact List.mem_map.1 hm
  rw [Tree.Depends, operands_node hy] at h
  split at h
  · exact .inr ⟨y, hy, rfl, hkid (List.mem_of_mem_take h)⟩
  · exact .inl (declared?_of_binding? (Option.mem_toList.1 h))
  · exact .inr ⟨y, hy, rfl, hkid (List.mem_of_mem_take h)⟩
  · exact .inr ⟨y, hy, rfl, hkid (List.mem_of_mem_take h)⟩
  · cases h

/-- The first declaration around a node on a cycle is on the cycle too. The induction goes
from a node to its reader, as long as the reader is its parent. -/
theorem exists_declared (o : Outline) (r : RuleProvider) {m : Nat}
    (h : (Tree.ofOutline o).OnCycle m) :
    ∃ decl ∈ (Tree.ofOutline o).lineage m, ∃ name,
      (Tree.ofOutline o).declared? decl = some name ∧
      ((Tree.ofOutline o).lineage m).findSome? (Tree.ofOutline o).declared? = some name ∧
      (Tree.ofOutline o).Entangled m decl := by
  induction m using Nat.strongRecOn with
  | _ m ih =>
    cases hm : (Tree.ofOutline o).declared? m with
    | some name =>
      obtain ⟨rest, hrest⟩ : ∃ rest, (Tree.ofOutline o).lineage m = m :: rest := by
        rw [Tree.lineage]
        split
        · split
          · exact ⟨_, rfl⟩
          · exact ⟨_, rfl⟩
        · exact ⟨_, rfl⟩
      rw [hrest]
      refine ⟨m, List.mem_cons_self, name, hm, ?_, .refl m⟩
      rw [List.findSome?_cons, hm]
    | none =>
      obtain ⟨p, hd, he⟩ := h.exists_reader
      rcases declared_or_kid_of_depends (r := r) hd with ⟨name, hname⟩ | ⟨y, hy, rfl, x, hx, rfl⟩
      · rw [hm] at hname
        cases hname
      · obtain ⟨decl, hmem, name, hname, hfirst, hdecl⟩ :=
          ih y.1.id (lt_of_mem_offspring hx) (h.of_entangled he)
        rw [lineage_of_mem_kids hy hx]
        refine ⟨decl, List.mem_cons_of_mem _ hmem, name, hname, ?_, he.trans hdecl⟩
        rw [List.findSome?_cons, hm]
        exact hfirst

end Outline

/-! ## The equation of a constant -/

namespace Equation

variable {α : Type}

/-- The equation reads the constants of the nodes `rest`, in this order, and fails with the
report `d` after each read that has closed a circle; it owes such a failure or not. -/
def Follows (d : Diagnostic) : Equation α → (owes : Bool) → (rest : List NodeId) → Prop
  | .done _, owes, rest => owes = false ∧ rest = []
  | .probe a dep next, owes, rest => owes = false ∧ a = .constant ∧
    ∃ later, rest = dep :: later ∧ ∀ p, (next p).Follows d p.isCyclic later
  | .fail d' next, owes, rest => owes = true ∧ d' = d ∧ next.Follows d false rest
  | .report _ _, _, _ => False
  | .stop _, _, _ => True
  | .malformed, _, _ => True

end Equation

namespace Subject

variable (s : Subject)

def circleAt (id : NodeId) (n : Node) : Diagnostic :=
  ⟨.cyclicDefinition, "constant `" ++ s.constantName id n ++ "` is defined in terms of itself",
    n.location⟩

def circle (id : NodeId) : Diagnostic :=
  (s.tree.node? id).elim ⟨.cyclicDefinition, "", ⟨0, 0⟩⟩ (s.circleAt id)

variable {s} {id dep : NodeId} {n : Node}

theorem circle_eq (hn : s.tree.node? id = some n) : s.circle id = s.circleAt id n := by
  rw [circle, hn]
  rfl

theorem kind_circle (s : Subject) (id : NodeId) : (s.circle id).kind = .cyclicDefinition := by
  unfold circle
  cases s.tree.node? id with
  | none => rfl
  | some n => rfl

theorem constantName_of_findSome? {name : String}
    (h : (s.tree.lineage id).findSome? s.tree.declared? = some name) :
    s.constantName id n = name := by
  unfold constantName
  dsimp only
  generalize hfound : (s.tree.lineage id).findSome? _ = found
  obtain rfl : found = some name := hfound.symm.trans h
  rfl

theorem follows_valueOf_bind {β : Type} {f : Option Const → Equation β} {rest : List NodeId}
    (hf : ∀ v, (f v).Follows (s.circleAt id n) false rest) :
    (s.valueOf id n dep >>= f).Follows (s.circleAt id n) false (dep :: rest) := by
  refine ⟨rfl, rfl, rest, rfl, fun p => ?_⟩
  cases p with
  | cyclic v => exact ⟨rfl, rfl, hf none⟩
  | ready v => exact hf v
  | failed v => exact hf v

theorem follows_valueOf : (s.valueOf id n dep).Follows (s.circleAt id n) false [dep] := by
  refine ⟨rfl, rfl, [], rfl, fun p => ?_⟩
  cases p with
  | cyclic v => exact ⟨rfl, rfl, rfl, rfl⟩
  | ready v => exact ⟨rfl, rfl⟩
  | failed v => exact ⟨rfl, rfl⟩

theorem follows_constant (s : Subject) (id : NodeId) :
    (s.constant id).Follows (s.circle id) false (s.tree.operands id) := by
  unfold constant node
  cases hn : s.tree.node? id with
  | none => trivial
  | some n =>
    rw [circle_eq hn, Tree.operands, hn]
    change Equation.Follows _ (Equation.bind (.done n) _) _ _
    unfold Equation.bind
    dsimp only
    cases hk : n.kind with
    | bool b => exact ⟨rfl, rfl⟩
    | int i => exact ⟨rfl, rfl⟩
    | constDecl name =>
      cases hc : n.children with
      | nil => exact ⟨rfl, rfl⟩
      | cons init rest => exact follows_valueOf
    | name name =>
      cases hb : s.tree.binding? id with
      | none => exact ⟨rfl, rfl⟩
      | some declaration => exact follows_valueOf
    | unary op =>
      unfold Node.child
      cases hc : n.children with
      | nil => trivial
      | cons u rest => exact follows_valueOf_bind fun v => ⟨rfl, rfl⟩
    | binary op =>
      unfold Node.child
      cases hc : n.children with
      | nil => trivial
      | cons u rest =>
        refine follows_valueOf_bind fun left => ?_
        cases rest with
        | nil => trivial
        | cons u' rest =>
          refine follows_valueOf_bind fun right => ?_
          dsimp only
          split
          · exact ⟨rfl, rfl⟩
          · exact ⟨rfl, rfl⟩
    | _ => exact ⟨rfl, rfl⟩

end Subject

/-! ## Reports of cycles -/

/-- The report is about a cycle through the node: it is located there, and names the
declaration around the node, which is on the cycle too. -/
structure Tree.Accuses (t : Tree) (d : Diagnostic) (id : NodeId) : Prop where
  kind : d.kind = .cyclicDefinition
  onCycle : t.OnCycle id
  located : (t.node? id).map Node.location = some d.location
  named : ∃ decl ∈ t.lineage id, ∃ name, t.declared? decl = some name ∧ t.Entangled id decl ∧
    d.message = "constant `" ++ name ++ "` is defined in terms of itself"

theorem Outline.accuses_circle (o : Outline) (r : RuleProvider) {id : Nat}
    (h : (Tree.ofOutline o).OnCycle id) :
    (Tree.ofOutline o).Accuses ((o.subject r).circle id) id := by
  obtain ⟨dep, hd, -⟩ := h.exists_depends
  obtain ⟨n, hn⟩ := hd.exists_node
  obtain ⟨decl, hdecl, name, hname, hfirst, hent⟩ := o.exists_declared r h
  have heq : (o.subject r).circle id = _ := Subject.circle_eq hn
  rw [heq, Subject.circleAt, Subject.constantName_of_findSome? hfirst]
  exact ⟨rfl, h, by rw [hn]; rfl, decl, hdecl, name, hname, hent, rfl⟩

end Attribution
