import Mathlib.Data.List.Nodup
import Mathlib.Data.List.Pairwise
import Attribution.Proofs.Reference.Completion
/-!
# Subtrees

The nodes of a subtree with their sites (`subtree`). They are the nodes that have its
root in their lineage (`mem_lineage_iff`), and every one but the root stands below
exactly one of the root's children.
-/

namespace Attribution

namespace Outline

variable {o : Outline} {r : RuleProvider} {x y z b c f : Site × Outline}

abbrev subtree (o : Outline) (r : RuleProvider) (x : Site × Outline) : List (Site × Outline) :=
  x.2.sites (Tree.ofOutline o).constantOf (o.subject r) x.1

theorem self_mem_subtree (x : Site × Outline) : x ∈ o.subtree r x :=
  self_mem_sites x.1 x.2

theorem mem_subtree_iff : b ∈ o.subtree r x ↔ b = x ∨ ∃ z ∈ o.kids r x, b ∈ o.subtree r z := by
  rw [subtree, sites_eq, List.mem_cons, List.mem_flatMap]

theorem mem_subtree_of_kid (hz : z ∈ o.kids r x) (hb : b ∈ o.subtree r z) : b ∈ o.subtree r x :=
  mem_subtree_iff.2 (.inr ⟨z, hz, hb⟩)

theorem mem_table_of_mem_subtree (hx : x ∈ o.table r) (hb : b ∈ o.subtree r x) : b ∈ o.table r :=
  sites_subset o hx hb

theorem subtree_subset (hy : y ∈ o.subtree r x) : o.subtree r y ⊆ o.subtree r x :=
  sites_subset x.2 hy

theorem id_le_of_mem_subtree (hb : b ∈ o.subtree r x) : x.1.id ≤ b.1.id :=
  (getElem?_sites hb).1

theorem eq_of_id_eq (hx : x ∈ o.table r) (hy : y ∈ o.table r) (h : x.1.id = y.1.id) : x = y := by
  have hget := Tree.getElem?_sites_root hx
  rw [h, Tree.getElem?_sites_root hy] at hget
  exact (Option.some.inj hget).symm

theorem eq_of_mem_subtree (hx : x ∈ o.table r) (hb : b ∈ o.subtree r x) (h : x ∈ o.subtree r b) :
    b = x :=
  eq_of_id_eq (mem_table_of_mem_subtree hx hb) hx
    (Nat.le_antisymm (id_le_of_mem_subtree h) (id_le_of_mem_subtree hb))

theorem not_mem_subtree_kid (hz : z ∈ o.kids r x) : x ∉ o.subtree r z := by
  intro hmem
  have hle := id_le_of_mem_subtree hmem
  have hlt := lt_of_mem_offspring hz
  omega

theorem nodup_subtree (x : Site × Outline) : (o.subtree r x).Nodup := by
  apply List.Nodup.of_map (fun z => z.1.id)
  rw [ids_sites]
  exact List.nodup_range'

/-- The subtrees of the children of a node have no node in common. -/
theorem kid_unique (hz : z ∈ o.kids r x) (hy : y ∈ o.kids r x) (hbz : b ∈ o.subtree r z)
    (hby : b ∈ o.subtree r y) : z = y := by
  have hnodup := nodup_subtree (o := o) (r := r) x
  rw [subtree, sites_eq, List.nodup_cons, List.nodup_flatMap] at hnodup
  have hsymm : Std.Symm (Function.onFun List.Disjoint (o.subtree r)) := ⟨fun _ _ h => h.symm⟩
  have hdisjoint : (o.kids r x).Pairwise (Function.onFun List.Disjoint (o.subtree r)) := hnodup.2.2
  by_contra hne
  exact hdisjoint.forall hz hy hne hbz hby

/-! ## Lineages -/

theorem lineage_of_mem_kids (hy : y ∈ o.table r) (hx : x ∈ o.kids r y) :
    (Tree.ofOutline o).lineage x.1.id = x.1.id :: (Tree.ofOutline o).lineage y.1.id := by
  obtain ⟨i, hi⟩ := List.mem_iff_getElem?.1 hx
  have hparent : (Tree.ofOutline o).parent? x.1.id = some y.1.id :=
    parent?_of_mem (mem_table_of_mem_offspring hy hx) hi
  rw [Tree.lineage, hparent]
  exact if_pos (lt_of_mem_offspring hx)

theorem mem_subtree_kid_iff (hx : x ∈ o.table r) (hy : y ∈ o.table r) (hb : b ∈ o.kids r y) :
    b ∈ o.subtree r x ↔ b = x ∨ y ∈ o.subtree r x := by
  constructor
  · intro h
    rcases eq_root_or_mem_offspring x.2 h with rfl | ⟨p, hp, hbp⟩
    · exact .inl rfl
    · have hpt := mem_table_of_mem_subtree hx hp
      have hbt := mem_table_of_mem_offspring hy hb
      obtain ⟨i, hi⟩ := List.mem_iff_getElem?.1 hb
      obtain ⟨k, hk⟩ := List.mem_iff_getElem?.1 hbp
      have hid := (parent?_of_mem hbt hi).symm.trans (parent?_of_mem hbt hk)
      rw [eq_of_id_eq hy hpt (Option.some.inj hid)]
      exact .inr hp
  · rintro (rfl | h)
    · exact self_mem_subtree b
    · exact mem_sites_of_mem_offspring h hb

theorem mem_lineage_iff (hx : x ∈ o.table r) (hb : b ∈ o.table r) :
    x.1.id ∈ (Tree.ofOutline o).lineage b.1.id ↔ b ∈ o.subtree r x := by
  induction hn : b.1.id using Nat.strongRecOn generalizing b with
  | _ n ih =>
    subst hn
    rcases eq_root_or_mem_offspring o hb with rfl | ⟨y, hy, hby⟩
    · have hparent : (Tree.ofOutline o).parent? (root, o).1.id = none := parent?_root hb
      rw [Tree.lineage, hparent, List.mem_singleton]
      constructor
      · intro hid
        rw [eq_of_id_eq hx hb hid]
        exact self_mem_subtree _
      · intro hmem
        exact Nat.le_antisymm (id_le_of_mem_subtree hmem) (Nat.zero_le _)
    · rw [lineage_of_mem_kids hy hby, List.mem_cons, ih y.1.id (lt_of_mem_offspring hby) hy rfl,
        mem_subtree_kid_iff hx hy hby]
      apply or_congr_left
      constructor
      · exact fun hid => (eq_of_id_eq hx hb hid).symm
      · rintro rfl
        rfl

theorem parent?_eq_iff (hy : y ∈ o.table r) (hx : x ∈ o.table r) :
    (Tree.ofOutline o).parent? x.1.id = some y.1.id ↔ x ∈ o.kids r y := by
  constructor
  · intro h
    rcases eq_root_or_mem_offspring o hx with rfl | ⟨p, hp, hxp⟩
    · rw [show (Tree.ofOutline o).parent? (root, o).1.id = none from parent?_root hx] at h
      cases h
    · obtain ⟨i, hi⟩ := List.mem_iff_getElem?.1 hxp
      have hid := h.symm.trans (parent?_of_mem hx hi)
      rw [eq_of_id_eq hy hp (Option.some.inj hid)]
      exact hxp
  · intro h
    obtain ⟨i, hi⟩ := List.mem_iff_getElem?.1 h
    exact parent?_of_mem hx hi

/-! ## Expressions -/

theorem isExpression_kid (hs : o.Shaped) (hx : x ∈ o.table r)
    (hk : x.2.kind.isExpression = true) (hz : z ∈ o.kids r x) : z.2.kind.isExpression = true := by
  have hfits := fits_of_mem o hs hx
  have hmem : z.2 ∈ x.2.children := by
    rw [← map_snd_kids (o := o) (r := r) x]
    exact List.mem_map.2 ⟨z, hz, rfl⟩
  cases hkind : x.2.kind with
  | bool | int | name =>
    rw [hkind] at hfits
    rw [show x.2.children = [] from hfits] at hmem
    cases hmem
  | unary op =>
    rw [hkind] at hfits
    obtain ⟨u, hchildren, hu⟩ := hfits
    rw [hchildren, List.mem_singleton] at hmem
    rw [hmem]
    exact hu
  | binary op =>
    rw [hkind] at hfits
    obtain ⟨u, v, hchildren, hu, hv⟩ := hfits
    rw [hchildren, List.mem_pair] at hmem
    rcases hmem with hmem | hmem
    · rw [hmem]
      exact hu
    · rw [hmem]
      exact hv
  | call callee =>
    rw [hkind] at hfits
    exact hfits z.2 hmem
  | _ =>
    rw [hkind] at hk
    cases hk

theorem isExpression_subtree (hs : o.Shaped) (hx : x ∈ o.table r)
    (hk : x.2.kind.isExpression = true) (hb : b ∈ o.subtree r x) : b.2.kind.isExpression = true := by
  induction hn : x.2.size using Nat.strongRecOn generalizing x with
  | _ n ih =>
    rcases mem_subtree_iff.1 hb with rfl | ⟨z, hz, hbz⟩
    · exact hk
    · have hlt := lt_of_mem_offspring hz
      have hend := end_le_of_mem_offspring hz
      exact ih z.2.size (by omega) (mem_table_of_mem_offspring hx hz)
        (isExpression_kid hs hx hk hz) hbz rfl

theorem kids_jump (hs : o.Shaped) (hx : x ∈ o.table r)
    (hk : (∃ label, x.2.kind = .breakTo label) ∨ ∃ label, x.2.kind = .continueTo label) :
    o.kids r x = [] := by
  have hfits := fits_of_mem o hs hx
  have hchildren : x.2.children = [] := by
    rcases hk with ⟨label, hk⟩ | ⟨label, hk⟩
    · rw [hk] at hfits
      exact hfits
    · rw [hk] at hfits
      exact hfits
  have hmap := map_snd_kids (o := o) (r := r) x
  rw [hchildren] at hmap
  exact List.map_eq_nil_iff.1 hmap

end Outline

end Attribution
