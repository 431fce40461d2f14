import Attribution.Proofs.Analysis.Circularity
import Attribution.Proofs.Analysis.Shallow
import Attribution.Proofs.Semantics.Unreachable
import Attribution.Proofs.Tree.Decoding
/-!
# The depth of a diagnosis

A diagnosis goes through the tree in preorder. When it comes to a node, it has found out
of all statements before it whether control comes to them (`Explored`), so nothing that
is asked for from there leads back along a sequence of statements: a request goes down
into the subtree to the left, or up to an enclosing statement. Each of these takes at
most as many units as the tree has levels (`shallow_exit`, `shallow_reachable`), and so
does the search for constants, as long as nothing is declared (`shallow_constant`).

Hence a diagnosis gets by with a stack of twice the height of the tree, and three more
(`diagnose_shallow`).
-/

namespace Attribution

open Engine

namespace Tree

def level (t : Tree) (id : NodeId) : Nat :=
  (t.lineage id).length - 1

def height (t : Tree) : Nat :=
  (t.preorder.map t.level).max?.getD 0

def ConstFree (t : Tree) : Prop :=
  ∀ n ∈ t.nodes, ∀ name, n.kind ≠ .constDecl name

theorem level_le_height {t : Tree} {id : NodeId} (h : id < t.size) : t.level id ≤ t.height :=
  List.le_max?_getD_of_mem (List.mem_map_of_mem (List.mem_range.2 h))

theorem lineage_ne_nil (t : Tree) (id : NodeId) : t.lineage id ≠ [] := by
  rw [lineage]
  split
  · split
    · exact List.cons_ne_nil _ _
    · exact List.cons_ne_nil _ _
  · exact List.cons_ne_nil _ _

theorem ConstFree.declarations {o : Outline} (h : (ofOutline o).ConstFree) :
    (ofOutline o).declarations = [] := by
  refine List.filterMap_eq_nil_iff.2 fun x hx => ?_
  obtain ⟨n, i⟩ := x
  have hmem : n ∈ (ofOutline o).nodes := by
    rw [← Array.mem_toList_iff]
    exact List.fst_mem_of_mem_zipIdx hx
  have hkind := h n hmem
  obtain ⟨kind, children, parent, index, location⟩ := n
  cases kind with
  | constDecl name => exact absurd rfl (hkind name)
  | _ => rfl

theorem ConstFree.binding? {o : Outline} (h : (ofOutline o).ConstFree) (id : NodeId) :
    (ofOutline o).binding? id = none := by
  unfold Tree.binding?
  split
  · rw [h.declarations]
    rfl
  · rfl

end Tree

namespace Outline

variable {o : Outline} {r : RuleProvider} {x y z : Site × Outline} {i : Nat}
  {P : Attribute → NodeId → Prop}

theorem level_kid (hy : y ∈ o.table r) (hx : x ∈ o.kids r y) :
    (Tree.ofOutline o).level x.1.id = (Tree.ofOutline o).level y.1.id + 1 := by
  have hpos := List.length_pos_iff.2 ((Tree.ofOutline o).lineage_ne_nil y.1.id)
  rw [Tree.level, Tree.level, lineage_of_mem_kids hy hx, List.length_cons]
  omega

theorem level_le_height (hx : x ∈ o.table r) :
    (Tree.ofOutline o).level x.1.id ≤ (Tree.ofOutline o).height :=
  Tree.level_le_height (Tree.id_lt_size hx)

variable (o r) in
theorem exists_kid_of_children {m : NodeId} (hm : (nodeAt y).children[i]? = some m) :
    ∃ z, (o.kids r y)[i]? = some z ∧ z.1.id = m := by
  rw [children_nodeAt (Tree.ofOutline o).constantOf (o.subject r), List.getElem?_map] at hm
  exact Option.map_eq_some_iff.1 hm

variable (o r) in
theorem exists_kid_of_mem_children {m : NodeId} (hm : m ∈ (nodeAt y).children) :
    ∃ z ∈ o.kids r y, z.1.id = m := by
  rw [children_nodeAt (Tree.ofOutline o).constantOf (o.subject r)] at hm
  exact List.mem_map.1 hm

theorem depends_lt (r : RuleProvider) (hfree : (Tree.ofOutline o).ConstFree) {id dep : NodeId}
    (h : (Tree.ofOutline o).Depends id dep) : id < dep := by
  unfold Tree.Depends Tree.operands at h
  split at h
  · cases h
  · rename_i n hn
    obtain ⟨x, hx, rfl, rfl⟩ := Tree.exists_site_of_node? (Tree.ofOutline o).constantOf
      (o.subject r) hn
    have hkid : dep ∈ (nodeAt x).children → x.1.id < dep := by
      intro hdep
      obtain ⟨z, hz, rfl⟩ := exists_kid_of_mem_children o r hdep
      exact lt_of_mem_offspring hz
    split at h
    · exact hkid (List.mem_of_mem_take h)
    · rw [hfree.binding?] at h
      cases h
    · exact hkid (List.mem_of_mem_take h)
    · exact hkid (List.mem_of_mem_take h)
    · cases h

theorem not_depends_cycle (r : RuleProvider) (hfree : (Tree.ofOutline o).ConstFree) (id : NodeId) :
    ¬Relation.TransGen (Tree.ofOutline o).Depends id id := by
  have hlt : ∀ {a b}, Relation.TransGen (Tree.ofOutline o).Depends a b → a < b := by
    intro a b hab
    induction hab with
    | single h => exact depends_lt r hfree h
    | tail _ h ih => exact Nat.lt_trans ih (depends_lt r hfree h)
  exact fun h => Nat.lt_irrefl id (hlt h)

theorem id_eq_of_left (hz : (o.kids r y)[i]? = some z) (hx : (o.kids r y)[i + 1]? = some x) :
    x.1.id = z.1.id + z.2.size := by
  obtain ⟨before, -, -, hsucc⟩ := childSites_get y.2.children hx
  obtain ⟨z', hz', -, hid⟩ := hsucc i rfl
  obtain rfl := Option.some.inj (hz.symm.trans hz')
  exact hid

/-! ## Equations at their sites -/

theorem exists_above (hx : x ∈ o.table r) {p : NodeId} (hp : (nodeAt x).parent = some p) :
    ∃ y ∈ o.table r, y.1.id = p ∧ (o.kids r y)[x.1.index]? = some x := by
  rcases eq_root_or_mem_offspring o hx with rfl | ⟨y, hy, hmem⟩
  · cases hp
  · obtain ⟨i, hi⟩ := List.mem_iff_getElem?.1 hmem
    obtain ⟨hparent, hindex, -⟩ := of_mem_offspring hi
    refine ⟨y, hy, Option.some.inj (hparent.symm.trans hp), ?_⟩
    rw [hindex]
    exact hi

theorem confined_reachable (hx : x ∈ o.table r)
    (hparent : ∀ y ∈ o.table r, x ∈ o.kids r y → P .reachable y.1.id)
    (hbefore : ∀ y ∈ o.table r, ∀ i z, (o.kids r y)[i]? = some z → (o.kids r y)[i + 1]? = some x →
      y.2.kind.isSequence = true → P .completes z.1.id)
    (hguard : ∀ y ∈ o.table r, (o.kids r y)[1]? = some x → y.2.kind = .whileLoop →
      ∀ z ∈ o.kids r y, P .constant z.1.id) :
    ((o.subject r).reachable x.1.id).Confined P fun _ => True := by
  refine Subject.confined_reachable (node?_subject hx) (fun p hp => ?_)
    (fun p above m hp habove hseq hpos hm => ?_) (fun p above m hp habove hloop hindex hm => ?_)
  all_goals obtain ⟨y, hy, rfl, hi⟩ := exists_above hx hp
  · exact hparent y hy (List.mem_of_getElem? hi)
  · obtain rfl := Option.some.inj (habove.symm.trans (node?_subject hy))
    obtain ⟨z, hz, rfl⟩ := exists_kid_of_children o r hm
    refine hbefore y hy _ z hz ?_ hseq
    rw [show (nodeAt x).index - 1 + 1 = x.1.index from Nat.succ_pred_eq_of_pos hpos]
    exact hi
  · obtain rfl := Option.some.inj (habove.symm.trans (node?_subject hy))
    obtain ⟨z, hz, rfl⟩ := exists_kid_of_children o r hm
    rw [show x.1.index = 1 from hindex] at hi
    exact hguard y hy hi hloop z (List.mem_of_getElem? hz)

theorem confined_unreachable (hx : x ∈ o.table r) (hown : P .reachable x.1.id)
    (hbefore : ∀ y ∈ o.table r, y.1.id < x.1.id → P .reachable y.1.id) :
    ((o.subject r).unreachable x.1.id).Confined P fun _ => True := by
  refine Subject.confined_unreachable (node?_subject hx) hown (fun p hp => ?_)
    (fun p above m hp habove hpos hm => ?_)
  all_goals obtain ⟨y, hy, rfl, hi⟩ := exists_above hx hp
  · exact hbefore y hy (lt_of_mem_offspring (List.mem_of_getElem? hi))
  · obtain rfl := Option.some.inj (habove.symm.trans (node?_subject hy))
    obtain ⟨z, hz, rfl⟩ := exists_kid_of_children o r hm
    rw [show x.1.index = (nodeAt x).index - 1 + 1 from (Nat.succ_pred_eq_of_pos hpos).symm] at hi
    have hid := id_eq_of_left hz hi
    have hsize := z.2.size_pos
    exact hbefore z (mem_table_of_mem_offspring hy (List.mem_of_getElem? hz)) (by omega)

theorem role_kid (hi : (o.kids r y)[i]? = some x) : (y.2.children.map role)[i]? = some x.2.role := by
  rw [← map_snd_kids (o := o) (r := r) y, List.getElem?_map, List.getElem?_map, hi]
  rfl

end Outline

namespace Scene

open Outline

variable {g : Scene} {w w' : World Attribute.schema} {x : Site × Outline} {a : Attribute}
  {m k : Nat}

theorem acyclic_of_constFree (hfree : g.tree.ConstFree) : g.Acyclic := by
  intro c hc
  rcases before_or_dependsOn hc with hbefore | ⟨-, -, hdepends⟩
  · exact hbefore.irrefl
  · exact not_depends_cycle g.rules hfree c.node hdepends

/-! ## How many units an attribute needs -/

/-- It is known of the statements before node `m` whether control comes to them. -/
def Explored (g : Scene) (w : World Attribute.schema) (m : Nat) : Prop :=
  ∀ x ∈ g.outline.table g.rules, x.1.id < m → x.1.parent ≠ none → x.2.role = .statement →
    w.ended ⟨.standard .reachable, x.1.id⟩ = true

section Bounds

variable (hfree : g.tree.ConstFree) (hlaid : g.outline.Laid)

include hfree in
theorem shallow_constant (hx : x ∈ g.outline.table g.rules)
    (hk : g.tree.height < g.tree.level x.1.id + k) : g.Shallow w k .constant x.1.id := by
  induction k generalizing x with
  | zero => exact absurd (level_le_height hx) (Nat.not_le.2 hk)
  | succ k ih =>
    refine .inr (Subject.confined_constant (node?_subject hx) (fun m hm => ?_) fun m hm => ?_)
    · obtain ⟨z, hz, rfl⟩ := exists_kid_of_mem_children g.outline g.rules hm
      refine ih (mem_table_of_mem_offspring hx hz) ?_
      have hlevel : g.tree.level z.1.id = g.tree.level x.1.id + 1 := level_kid hx hz
      omega
    · cases (hfree.binding? x.1.id).symm.trans hm

include hlaid in
/-- Control comes to a node that is no statement where it comes to the parent, and the way
up ends at a statement or at the root. -/
theorem shallow_reachable (hexplored : g.Explored w m) (hx : x ∈ g.outline.table g.rules)
    (hm : x.1.id < m) (hk : g.tree.level x.1.id < k) : g.Shallow w k .reachable x.1.id := by
  induction k generalizing x with
  | zero => exact absurd hk (Nat.not_lt_zero _)
  | succ k ih =>
    by_cases hstatement : x.1.parent ≠ none ∧ x.2.role = .statement
    · exact .inl (hexplored x hx hm hstatement.1 hstatement.2)
    · have hparent {y : Site × Outline} {i : Nat}
          (hi : (g.outline.kids g.rules y)[i]? = some x) : x.1.parent ≠ none := by
        rw [(of_mem_offspring hi).1]
        exact Option.some_ne_none _
      -- Whatever follows another node in a sequence is a statement, and so is the body of a loop.
      refine .inr (confined_reachable hx (fun y hy hmem => ?_)
        (fun y hy i z _ hi hseq => ?_) fun y hy hi hloop => ?_)
      · have hlevel : g.tree.level x.1.id = g.tree.level y.1.id + 1 := level_kid hy hmem
        have hlt := lt_of_mem_offspring hmem
        exact ih hy (by omega) (by omega)
      · have hlayout := layout_of_mem _ hlaid hy
        exact absurd ⟨hparent hi, hlayout.sequence hseq _ (List.mem_of_getElem? (role_kid hi))⟩
          hstatement
      · have hlayout := layout_of_mem _ hlaid hy
        have hrole := role_kid hi
        rw [hloop] at hlayout
        rw [hlayout] at hrole
        exact absurd ⟨hparent hi, (Option.some.inj hrole).symm⟩ hstatement

include hfree hlaid in
/-- How control leaves a node is known from its parts, once it is known whether control
comes to them. -/
theorem shallow_exit (hexplored : g.Explored w m) (hx : x ∈ g.outline.table g.rules)
    (hend : x.1.id + x.2.size ≤ m) (ha : a.IsExit)
    (hk : 2 * g.tree.height + 1 < g.tree.level x.1.id + k) : g.Shallow w k a x.1.id := by
  have hle : g.tree.level x.1.id ≤ g.tree.height := level_le_height hx
  -- The children have one level more and one unit less.
  induction k generalizing x a with
  | zero => omega
  | succ k ih =>
    have hsize := x.2.size_pos
    have hown : g.Shallow w k .reachable x.1.id :=
      shallow_reachable hlaid hexplored hx (by omega) (by omega)
    have hkids : ∀ m ∈ (nodeAt x).children,
        (∀ a : Attribute, a.IsExit → g.Shallow w k a m) ∧ g.Shallow w k .constant m := by
      intro m hm
      obtain ⟨z, hz, rfl⟩ := exists_kid_of_mem_children g.outline g.rules hm
      have hzt := mem_table_of_mem_offspring hx hz
      have hlevel : g.tree.level z.1.id = g.tree.level x.1.id + 1 := level_kid hx hz
      have hinside := end_le_of_mem_offspring hz
      exact ⟨fun a ha => ih hzt (by omega) ha (by omega) (level_le_height hzt),
        shallow_constant hfree hzt (by omega)⟩
    rcases ha with rfl | rfl | rfl
    · exact .inr (Subject.confined_completes (node?_subject hx) hown hkids)
    · exact .inr (Subject.confined_escapes (node?_subject hx) hown hkids .break)
    · exact .inr (Subject.confined_escapes (node?_subject hx) hown hkids .continue)

include hfree hlaid in
/-- The next node in preorder. What comes before it in a sequence has been left behind. -/
theorem shallow_reachable_next (hx : x ∈ g.outline.table g.rules)
    (hexplored : g.Explored w x.1.id) :
    g.Shallow w (2 * g.tree.height + 2) .reachable x.1.id := by
  refine .inr (confined_reachable hx (fun y hy hmem => ?_) (fun y hy i z hz hi _ => ?_)
    fun y hy _ _ z hz => ?_)
  · have hle : g.tree.level y.1.id ≤ g.tree.height := level_le_height hy
    exact shallow_reachable hlaid hexplored hy (lt_of_mem_offspring hmem) (by omega)
  · have hmem := List.mem_of_getElem? hz
    have hlevel : g.tree.level z.1.id = g.tree.level y.1.id + 1 := level_kid hy hmem
    exact shallow_exit hfree hlaid hexplored (mem_table_of_mem_offspring hy hmem)
      (Nat.le_of_eq (id_eq_of_left hz hi).symm) (.inl rfl) (by omega)
  · have hlevel : g.tree.level z.1.id = g.tree.level y.1.id + 1 := level_kid hy hz
    exact shallow_constant hfree (mem_table_of_mem_offspring hy hz) (by omega)

include hfree hlaid in
theorem shallow_inspected (hs : g.outline.Shaped) (hx : x ∈ g.outline.table g.rules)
    (hexplored : g.Explored w x.1.id) (ha : a ∈ x.2.kind.inspected) :
    g.Shallow w (2 * g.tree.height + 3) a x.1.id := by
  have hown := shallow_reachable_next hfree hlaid hx hexplored
  have hjump (j : Jump) (hk : (∃ label, x.2.kind = .breakTo label) ∨
      ∃ label, x.2.kind = .continueTo label) :
      ((g.subject).escapes j x.1.id).Confined (g.Shallow w (2 * g.tree.height + 2))
        fun _ => True := by
    refine Subject.confined_escapes (node?_subject hx) hown (fun m hm => ?_) j
    obtain ⟨z, hz, -⟩ := exists_kid_of_mem_children g.outline g.rules hm
    rw [kids_jump hs hx hk] at hz
    cases hz
  rcases List.mem_append.1 ha with ha | ha
  · cases hk : x.2.kind with
    | breakTo label =>
      rw [hk] at ha
      cases List.mem_singleton.1 ha
      exact .inr (hjump .break (.inl ⟨label, hk⟩))
    | continueTo label =>
      rw [hk] at ha
      cases List.mem_singleton.1 ha
      exact .inr (hjump .continue (.inr ⟨label, hk⟩))
    | constDecl name =>
      have hmem := Array.mem_of_getElem? (node?_subject hx)
      exact absurd hk (hfree (nodeAt x) hmem name)
    | _ =>
      rw [hk] at ha
      cases ha
  · split at ha
    · cases List.mem_singleton.1 ha
      refine .inr (confined_unreachable hx hown fun y hy hlt => ?_)
      have hle : g.tree.level y.1.id ≤ g.tree.height := level_le_height hy
      exact shallow_reachable hlaid hexplored hy hlt (by omega)
    · cases ha

include hfree hlaid in
/-- Exceptions, once it is known of all statements whether control comes to them. -/
theorem shallow_propagated (hexplored : g.Explored w g.outline.size)
    (hx : x ∈ g.outline.table g.rules) (hk : 2 * g.tree.height + 2 < g.tree.level x.1.id + k) :
    g.Shallow w k .propagated x.1.id := by
  have hle : g.tree.level x.1.id ≤ g.tree.height := level_le_height hx
  induction k generalizing x with
  | zero => omega
  | succ k ih =>
    have hown : g.Shallow w k .reachable x.1.id :=
      shallow_reachable hlaid hexplored hx (id_lt_of_mem_table hx) (by omega)
    have hraised : g.Shallow w k .raised x.1.id := by
      obtain ⟨n, rfl⟩ : ∃ n, k = n + 1 := ⟨k - 1, by omega⟩
      exact .inr Subject.confined_raised
    refine .inr (Subject.confined_propagated (node?_subject hx) hown hraised fun m hm => ?_)
    obtain ⟨z, hz, rfl⟩ := exists_kid_of_mem_children g.outline g.rules hm
    have hzt := mem_table_of_mem_offspring hx hz
    have hlevel : g.tree.level z.1.id = g.tree.level x.1.id + 1 := level_kid hx hz
    exact ⟨ih hzt (by omega) (level_le_height hzt),
      shallow_exit hfree hlaid hexplored hzt (end_le_of_mem_table hzt) (.inl rfl) (by omega)⟩

end Bounds

/-! ## Diagnoses -/

theorem Explored.next (h : g.Explored w x.1.id) (hx : x ∈ g.outline.table g.rules)
    (ha : w.Ahead w') (hquiet : g.Quiet none w' [])
    (hended : x.2.kind.isStatement = true → w'.ended ⟨.standard .unreachable, x.1.id⟩ = true) :
    g.Explored w' (x.1.id + 1) := by
  intro y hy hlt hparent hrole
  by_cases hid : y.1.id < x.1.id
  · exact ha.ended (h y hy hid hparent hrole)
  · obtain rfl := eq_of_id_eq hy hx (by omega)
    obtain ⟨hstatement, hclause⟩ := NodeKind.of_role_statement hrole
    obtain ⟨p, hp⟩ := Option.ne_none_iff_exists'.1 hparent
    -- Whether the statement begins dead code was not decided before its reachability.
    exact hquiet.opened _ _ (hended hstatement)
      (Subject.first?_unreachable (node?_subject hx) hp hclause)

section Diagnose

variable {limit : Nat} (hs : g.outline.Shaped) (hloose : ¬g.loose) (hacyclic : g.Acyclic)
  (hlimit : limit ≤ g.depth)

include hs hloose hacyclic hlimit

theorem succeeds_read (h : g.Quiet none w []) {id : NodeId} (hid : id < g.outline.size)
    (hshallow : g.Shallow w limit a id) :
    g.Succeeds limit w [] (g.subject.read a id) fun _ w' frames' =>
      g.Quiet none w' frames' ∧ w'.ended ⟨.standard a, id⟩ = true :=
  succeeds_bind (succeeds_probeCell hloose (opens hs hloose hacyclic hlimit limit) h nofun hid
    hshallow (Nat.le_of_eq (Nat.zero_add limit))) fun _ _ _ _ hread => succeeds_pure hread

theorem succeeds_diagnoseNode (h : g.Quiet none w []) (hx : x ∈ g.outline.table g.rules)
    (hshallow : ∀ a ∈ x.2.kind.inspected, g.Shallow w limit a x.1.id) :
    g.Succeeds limit w [] (g.subject.diagnoseNode x.1.id) fun _ w' frames' =>
      g.Quiet none w' frames' ∧
        (x.2.kind.isStatement = true → w'.ended ⟨.standard .unreachable, x.1.id⟩ = true) := by
  have hid := id_lt_of_mem_table hx
  rw [g.subject.diagnoseNode_eq (node?_subject hx)]
  apply succeeds_bind (Q := fun _ w' frames' => g.Quiet none w' frames')
  · cases hchecked : (nodeAt x).kind.checked? with
    | none => exact succeeds_pure h
    | some a =>
      have hmem : a ∈ x.2.kind.inspected := List.mem_append_left _ (by
        rw [show x.2.kind.checked? = some a from hchecked]
        exact List.mem_singleton_self a)
      exact succeeds_bind (succeeds_read hs hloose hacyclic hlimit h hid (hshallow a hmem))
        fun _ _ _ _ hread => succeeds_pure hread.1
  · intro _ w' frames' ho h'
    obtain rfl := ho.nil
    split
    · rename_i hstatement
      have hmem : Attribute.unreachable ∈ x.2.kind.inspected := List.mem_append_right _ (by
        rw [if_pos (show x.2.kind.isStatement = true from hstatement)]
        exact List.mem_singleton_self _)
      exact (succeeds_read hs hloose hacyclic hlimit h' hid
        ((hshallow _ hmem).ahead ho.ahead)).mono fun _ _ _ _ hread =>
          ⟨hread.1, fun _ => hread.2⟩
    · rename_i hstatement
      exact succeeds_pure ⟨h', fun htrue => absurd htrue hstatement⟩

/-- The nodes are diagnosed in preorder, so at each of them all statements before it are
explored. -/
theorem succeeds_diagnoseAll (hfree : g.tree.ConstFree) (hlaid : g.outline.Laid)
    (hroom : 2 * g.tree.height + 3 ≤ limit) (h : g.Quiet none w []) (hexplored : g.Explored w m)
    (hk : m + k = g.outline.size) (found : Nat) :
    g.Succeeds limit w [] (g.subject.diagnoseAll found (List.range' m k)) fun _ w' frames' =>
      g.Quiet none w' frames' ∧ g.Explored w' g.outline.size := by
  induction k generalizing w m found with
  | zero =>
    obtain rfl : m = g.outline.size := hk
    exact succeeds_pure ⟨h, hexplored⟩
  | succ k ih =>
    obtain ⟨x, hx, rfl⟩ := exists_mem_table g.rules (show m < g.outline.size by omega)
    rw [List.range'_succ]
    apply succeeds_bind (succeeds_diagnoseNode hs hloose hacyclic hlimit h hx fun a ha =>
      (shallow_inspected hfree hlaid hs hx hexplored ha).mono hroom)
    rintro begins w' frames' ho ⟨h', hended⟩
    obtain rfl := ho.nil
    exact ih h' (hexplored.next hx ho.ahead h' hended) (by omega) _

theorem succeeds_diagnose (hfree : g.tree.ConstFree) (hlaid : g.outline.Laid)
    (hroom : 2 * g.tree.height + 3 ≤ limit) (h : g.Quiet none w []) :
    g.Succeeds limit w [] g.subject.diagnose fun _ _ _ => True := by
  apply succeeds_bind (succeeds_note h _)
  intro _ w₁ frames ho h₁
  obtain rfl := ho.nil
  rw [show g.subject.tree.preorder = List.range' 0 g.outline.size by
    rw [← Tree.size_ofOutline, ← List.range_eq_range']
    rfl]
  apply succeeds_bind (succeeds_diagnoseAll hs hloose hacyclic hlimit hfree hlaid hroom h₁
    (fun _ _ hlt => absurd hlt (Nat.not_lt_zero _)) (Nat.zero_add _) 0)
  rintro unreachable w₂ frames ho ⟨h₂, hexplored⟩
  obtain rfl := ho.nil
  obtain ⟨x, hx, hroot⟩ := exists_mem_table g.rules g.outline.size_pos
  have hshallow : g.Shallow w₂ limit .propagated g.subject.tree.root := by
    have hpropagated := shallow_propagated hfree hlaid hexplored hx (k := limit) (by omega)
    rw [hroot] at hpropagated
    exact hpropagated
  apply succeeds_bind (succeeds_read hs hloose hacyclic hlimit h₂ g.outline.size_pos hshallow)
  rintro escaping w₃ frames ho ⟨h₃, -⟩
  obtain rfl := ho.nil
  apply succeeds_bind succeeds_slots
  rintro slots _ _ - ⟨-, rfl, rfl⟩
  exact (succeeds_note h₃ _).mono fun _ _ _ _ _ => trivial

end Diagnose

/-! ## The stack of a diagnosis -/

theorem quiet_start (config : Config) (hdepth : config.limits.maxDepth = g.depth) (n : Nat) :
    g.Quiet none { (Analysis.start g.subject config).world with evaluators := n } [] := by
  have hquiet : g.Quiet none (Analysis.start g.subject config).world [] :=
    ⟨inv_start config hdepth, nofun, nofun, nofun⟩
  exact hquiet.same (World.same_of_eq rfl rfl rfl)

/-- Whoever runs is on the stack, so there is nothing to wait for; and the engine keeps to
its own limit. -/
theorem Inv.fits {α : Type} {e : Evaluator Attribute.schema α} {c : CellKey}
    {u : WorkUnit CellKey} (h : g.Inv False w e.frames) (hhome : e.home = Analysis.home)
    (hu : w.resolver? c = some u) : e.Fits g.depth w u := by
  refine ⟨fun hbusy => ?_, fun hgranted => ?_⟩
  · obtain ⟨⟨status, hs, hrun⟩, -⟩ := Evaluator.of_busy hbusy
    rw [hhome] at hs
    obtain ⟨_, _, _, -, -, hindex⟩ :=
      h.exists_split hu (h.stacked.on_stack c status ((World.stage_eq hu).trans hs) hrun)
    have hfits : e.Fits g.depth w u := Evaluator.fits_of_stacked hindex
    exact hfits.free hbusy
  · obtain ⟨-, -, -, hroom⟩ := Evaluator.claimable_of_granted hgranted
    rw [hhome] at hroom
    exact Nat.lt_of_lt_of_eq hroom h.wired.limit

section Stack

variable (hs : g.outline.Shaped) (hloose : ¬g.loose) (hfree : g.tree.ConstFree)
  (hlaid : g.outline.Laid) (h : g.Quiet none w []) (id : EvaluatorId) (worker : Option Nat)

include hs hloose hfree hlaid h

theorem watched_diagnose {limit : Nat} (hroom : 2 * g.tree.height + 3 ≤ limit)
    (hlimit : limit ≤ g.depth) :
    Watched g.model (.roomy Analysis.home limit) (fun _ e => e.Gave (.ok ())) w
      (Operation.diagnose.evaluator g.subject id worker) := by
  have hsucceeds := succeeds_diagnose hs hloose (acyclic_of_constFree hfree) hlimit hfree hlaid
    hroom h
  apply (hsucceeds.watched (e := Operation.diagnose.evaluator g.subject id worker) rfl rfl rfl
    rfl).mono
  rintro w' e ⟨_, ⟨⟨⟩, rfl, -⟩, he⟩
  rw [he]
  exact ⟨rfl, rfl⟩

theorem length_le_of_leads {e : Evaluator Attribute.schema (Except Error Unit)}
    (hl : Leads g.model w (Operation.diagnose.evaluator g.subject id worker) w' e) :
    e.frames.length ≤ 2 * g.tree.height + 3 := by
  have hstart (limit : Nat) :
      (Operation.diagnose.evaluator g.subject id worker).Within Analysis.home limit :=
    ⟨rfl, Nat.zero_le limit, nofun⟩
  by_cases hdepth : 2 * g.tree.height + 3 ≤ g.depth
  · exact ((watched_diagnose hs hloose hfree hlaid h id worker (Nat.le_refl _) hdepth).within
      (fun _ _ hgave => ⟨_, hgave⟩) (hstart _) hl).frames
  · -- The limit of the engine is lower still.
    have hwithin : e.Within Analysis.home g.depth := by
      have hpermits : g.Permits .diagnose := nofun
      refine hl.within (hstart _) fun v d u hd hhome hwrites hfocus => ?_
      obtain ⟨c, hinv, hu, -⟩ := (allows_of_leads hs h.inv hpermits hd).enters u hwrites hfocus
      exact hinv.fits hhome hu
    have hframes := hwithin.frames
    omega

end Stack

end Scene

/-- **A diagnosis needs room for the height of the tree, not for its length.** Where
nothing is declared, the stack of the first diagnosis stays within a bound that depends
on the height of the tree alone, whatever the limit of the engine is; and the diagnosis
ends well if the limit leaves that much room. -/
theorem diagnose_shallow (program : Stmt) (rules : Rules) (config : Config)
    (hfree : (Tree.ofProgram program).ConstFree) (n : Nat) (id : EvaluatorId)
    (worker : Option Nat) :
    (∀ w e, Leads (program.subject rules).model
        { (Analysis.start (program.subject rules) config).world with evaluators := n }
        (Operation.diagnose.evaluator (program.subject rules) id worker) w e →
      e.frames.length ≤ 2 * (Tree.ofProgram program).height + 3) ∧
    (2 * (Tree.ofProgram program).height + 3 ≤ config.limits.maxDepth →
      Ends (program.subject rules).model (fun _ e => e.Gave (.ok ()))
        { (Analysis.start (program.subject rules) config).world with evaluators := n }
        (Operation.diagnose.evaluator (program.subject rules) id worker)) := by
  let g : Scene := program.scene rules config False
  have hs : g.outline.Shaped := program.shaped_outline 0
  have hlaid : g.outline.Laid := program.laid_outline 0
  have hquiet := Scene.quiet_start (g := g) config rfl n
  exact ⟨fun w e hl => Scene.length_le_of_leads hs not_false hfree hlaid hquiet id worker hl,
    fun hroom => (Scene.watched_diagnose hs not_false hfree hlaid hquiet id worker hroom
      (Nat.le_refl _)).ends⟩

def longLoop : Stmt :=
  .whileLoop (.bool true) (.block (List.replicate 12 (.expr (.call "step" []))))

/-- Twelve statements one after the other, and room for nine units. -/
theorem diagnose_shallow_longLoop :
    (Tree.ofProgram longLoop).ConstFree ∧ (Tree.ofProgram longLoop).height = 3 ∧
      Ends (longLoop.subject ({} : Rules)).model (fun _ e => e.Gave (.ok ()))
        (Analysis.start (longLoop.subject ({} : Rules)) { limits := { maxDepth := 9 } }).world
        (Operation.diagnose.evaluator (longLoop.subject ({} : Rules)) 0 none) := by
  have hheight : (Tree.ofProgram longLoop).height = 3 := by cbv
  have hfree : (Tree.ofProgram longLoop).ConstFree := by
    have hkinds : (Tree.ofProgram longLoop).nodes.all
        (fun n => n.kind.checked? ≠ some .constant) = true := by cbv
    intro n hn name hk
    have hchecked := Array.all_eq_true_iff_forall_mem.1 hkinds n hn
    rw [hk] at hchecked
    cases hchecked
  refine ⟨hfree, hheight, ?_⟩
  refine (diagnose_shallow longLoop {} { limits := { maxDepth := 9 } } hfree 0 0 none).2 ?_
  rw [hheight]

end Attribution
