import Attribution.Proofs.Analysis.Order
import Attribution.Proofs.Semantics.DeadCode
import Attribution.Proofs.Tree.Layout
import Attribution.Proofs.Tree.Location
/-!
# Reports of dead code

Control that comes to a node but not to a child of it stops at a front. Every dead
node stands below exactly one front (`exists_front`, `Front.unique`), and for every
front exactly one statement is reported: the child itself, or in a sequence the first
dead statement (`exists_heads`, `Heads.unique`). So the reports of a diagnosis cover
all dead code, each region of it once (`dead_code_reported_once`).
-/

namespace Attribution

open Engine

theorem NodeKind.Layout.sequence {kind : NodeKind} {roles : List Role} (h : kind.Layout roles)
    (hseq : kind.isSequence = true) : ∀ role ∈ roles, role = .statement := by
  cases kind with
  | block => exact h
  | case value => exact h
  | _ => cases hseq

theorem NodeKind.of_role_statement {kind : NodeKind} (h : kind.role = .statement) :
    kind.isStatement = true ∧ kind.isClause = false := by
  cases kind with
  | bool | int | name | unary | binary | call => cases h
  | case | catchClause | finallyClause => cases h
  | _ => exact ⟨rfl, rfl⟩

namespace Outline

variable {o : Outline} {r : RuleProvider} {x y z b p x' y' z' : Site × Outline} {i j : Nat}

theorem parent_unique (hy : y ∈ o.table r) (hy' : y' ∈ o.table r) (hx : x ∈ o.kids r y)
    (hx' : x ∈ o.kids r y') : y = y' := by
  have hxt := mem_table_of_mem_offspring hy hx
  have hid := ((parent?_eq_iff hy hxt).2 hx).symm.trans ((parent?_eq_iff hy' hxt).2 hx')
  exact eq_of_id_eq hy hy' (Option.some.inj hid)

theorem getElem?_kids_iff (hy : y ∈ o.table r) (hx : x ∈ o.table r) :
    ((o.kids r y).map fun z => z.1.id)[i]? = some x.1.id ↔ (o.kids r y)[i]? = some x := by
  rw [List.getElem?_map, Option.map_eq_some_iff]
  constructor
  · rintro ⟨z, hz, hid⟩
    have hzt := mem_table_of_mem_offspring hy (List.mem_of_getElem? hz)
    rw [hz, eq_of_id_eq hzt hx hid]
  · exact fun hi => ⟨x, hi, rfl⟩

/-! ## Fronts -/

/-- Control comes to the node `y` but not to its child `x`. -/
structure Front (o : Outline) (r : RuleProvider) (y x : Site × Outline) : Prop where
  parent : y ∈ o.table r
  kid : x ∈ o.kids r y
  live : y.1.reachable = true
  dead : x.1.reachable = false

namespace Front

theorem mem (h : o.Front r y x) : x ∈ o.table r :=
  mem_table_of_mem_offspring h.parent h.kid

theorem eq_of_live (h : o.Front r y x) (hp : p ∈ o.table r) (hb : b ∈ o.kids r p)
    (hlive : p.1.reachable = true) (hmem : b ∈ o.subtree r x) : b = x := by
  rcases (mem_subtree_kid_iff h.mem hp hb).1 hmem with heq | hpx
  · exact heq
  · rw [unreachable_subtree h.dead hpx] at hlive
    cases hlive

theorem mem_parent (h : o.Front r y x) (hp : p ∈ o.table r) (hb : b ∈ o.kids r p)
    (hdead : p.1.reachable = false) (hmem : b ∈ o.subtree r x) : p ∈ o.subtree r x := by
  rcases (mem_subtree_kid_iff h.mem hp hb).1 hmem with rfl | hpx
  · rw [parent_unique hp h.parent hb h.kid, h.live] at hdead
    cases hdead
  · exact hpx

theorem unique (h : o.Front r y x) (h' : o.Front r y' x') (hb : b ∈ o.subtree r x)
    (hb' : b ∈ o.subtree r x') : x = x' := by
  induction hn : b.1.id using Nat.strongRecOn generalizing b with
  | _ n ih =>
    subst hn
    rcases eq_root_or_mem_offspring o (mem_table_of_mem_subtree h.mem hb) with rfl | ⟨p, hp, hbp⟩
    · cases unreachable_subtree h.dead hb
    · cases hlive : p.1.reachable with
      | true => exact (h.eq_of_live hp hbp hlive hb).symm.trans (h'.eq_of_live hp hbp hlive hb')
      | false =>
        exact ih p.1.id (lt_of_mem_offspring hbp) (h.mem_parent hp hbp hlive hb)
          (h'.mem_parent hp hbp hlive hb') rfl

/-- Control only stops between the statements of a sequence and at the body of a loop. -/
theorem role (hlaid : o.Laid) (h : o.Front r y x) : x.2.role = .statement := by
  have hlayout := layout_of_mem o hlaid h.parent
  rw [← map_snd_kids (o := o) (r := r) y, List.map_map] at hlayout
  by_cases hseq : y.2.kind.isSequence = true
  · exact hlayout.sequence hseq _ (List.mem_map.2 ⟨x, h.kid, rfl⟩)
  by_cases hloop : y.2.kind = .whileLoop
  · rw [hloop] at hlayout
    obtain ⟨guard, rest, hkids, -, hrest⟩ := List.map_eq_cons_iff.1 hlayout
    obtain ⟨body, rfl, hbody⟩ := List.map_eq_singleton_iff.1 hrest
    have hmem := h.kid
    rw [hkids, List.mem_pair] at hmem
    rcases hmem with rfl | rfl
    · have hdead := h.dead
      rw [reachable_first hkids, h.live] at hdead
      cases hdead
    · exact hbody
  · have hdead := h.dead
    rw [reachable_kid (Bool.eq_false_iff.2 hseq) hloop h.kid, h.live] at hdead
    cases hdead

end Front

theorem exists_front (hb : b ∈ o.table r) (hdead : b.1.reachable = false) :
    ∃ y x, o.Front r y x ∧ b ∈ o.subtree r x := by
  induction hn : b.1.id using Nat.strongRecOn generalizing b with
  | _ n ih =>
    subst hn
    rcases eq_root_or_mem_offspring o hb with rfl | ⟨p, hp, hbp⟩
    · cases hdead
    · cases hlive : p.1.reachable with
      | true => exact ⟨p, b, ⟨hp, hbp, hlive, hdead⟩, self_mem_subtree b⟩
      | false =>
        obtain ⟨y, x, hfront, hpx⟩ := ih p.1.id (lt_of_mem_offspring hbp) hp hlive rfl
        exact ⟨y, x, hfront, (mem_subtree_kid_iff hfront.mem hp hbp).2 (.inr hpx)⟩

/-! ## Where dead code begins -/

theorem unreachable_iff (hy : y ∈ o.table r) (hi : (o.kids r y)[i]? = some x) :
    x.1.unreachable = true ↔ x.2.kind.isClause = false ∧ o.Front r y x ∧
      ∀ j z, i = j + 1 → y.2.kind.isSequence = true → (o.kids r y)[j]? = some z →
        z.1.reachable = true := by
  obtain ⟨before, hsite, hzero, hsucc⟩ := childSites_get y.2.children hi
  have hunreachable : x.1.unreachable =
      (!x.2.kind.isClause && !x.1.reachable && y.1.reachable && Site.preceded y.2 before) := by
    rw [hsite]
    rfl
  have hleft : Site.preceded y.2 before = true ↔ ∀ j z, i = j + 1 →
      y.2.kind.isSequence = true → (o.kids r y)[j]? = some z → z.1.reachable = true := by
    cases i with
    | zero =>
      rw [(hzero rfl).1]
      exact ⟨fun _ => nofun, fun _ => rfl⟩
    | succ k =>
      obtain ⟨q, hq, rfl, -⟩ := hsucc k rfl
      unfold Site.preceded
      dsimp only
      constructor
      · intro h j z hj hseq hz
        obtain rfl := Nat.succ.inj hj
        obtain rfl := Option.some.inj (hq.symm.trans hz)
        rwa [if_pos hseq] at h
      · intro h
        split
        · rename_i hseq
          exact h k q rfl hseq hq
        · rfl
  rw [hunreachable, Bool.and_eq_true, Bool.and_eq_true, Bool.and_eq_true, Bool.not_eq_true',
    Bool.not_eq_true', hleft]
  constructor
  · rintro ⟨⟨⟨hclause, hdead⟩, hlive⟩, hleft⟩
    exact ⟨hclause, ⟨hy, List.mem_of_getElem? hi, hlive, hdead⟩, hleft⟩
  · rintro ⟨hclause, hfront, hleft⟩
    exact ⟨⟨⟨hclause, hfront.dead⟩, hfront.live⟩, hleft⟩

/-- The statements at which dead code begins. -/
def onsets (o : Outline) (r : RuleProvider) : List (Site × Outline) :=
  (o.table r).filter fun x => x.2.kind.isStatement && x.1.unreachable

theorem mem_onsets : x ∈ o.onsets r ↔
    x ∈ o.table r ∧ x.2.kind.isStatement = true ∧ x.1.unreachable = true := by
  rw [onsets, List.mem_filter, Bool.and_eq_true]

theorem exists_front_of_mem_onsets (hx : x ∈ o.onsets r) : ∃ y, o.Front r y x := by
  obtain ⟨hxt, -, hunreachable⟩ := mem_onsets.1 hx
  rcases eq_root_or_mem_offspring o hxt with rfl | ⟨y, hy, hmem⟩
  · cases hunreachable
  · obtain ⟨i, hi⟩ := List.mem_iff_getElem?.1 hmem
    exact ⟨y, ((unreachable_iff hy hi).1 hunreachable).2.1⟩

theorem not_unreachable_after (hy : y ∈ o.table r) (hseq : y.2.kind.isSequence = true)
    (hi : (o.kids r y)[i]? = some x) (hdead : x.1.reachable = false) (hij : i < j)
    (hj : (o.kids r y)[j]? = some z) : z.1.unreachable = false := by
  rw [Bool.eq_false_iff]
  intro hz
  obtain ⟨k, rfl⟩ := Nat.exists_eq_add_one_of_ne_zero (Nat.ne_of_gt (Nat.zero_lt_of_lt hij))
  obtain ⟨q, hq⟩ := exists_left hj
  have hlive := ((unreachable_iff hy hj).1 hz).2.2 k q rfl hseq hq
  rw [unreachable_after hseq hi hdead (Nat.le_of_lt_succ hij) hq] at hlive
  cases hlive

theorem onset_unique (hy : y ∈ o.table r) (hseq : y.2.kind.isSequence = true)
    (hx : x ∈ o.onsets r) (hz : z ∈ o.onsets r) (hxy : x ∈ o.kids r y) (hzy : z ∈ o.kids r y) :
    x = z := by
  have hafter : ∀ {u v : Site × Outline} {i j : Nat}, u ∈ o.onsets r → v ∈ o.onsets r →
      (o.kids r y)[i]? = some u → (o.kids r y)[j]? = some v → ¬i < j := by
    intro u v i j hu hv hi hj hij
    obtain ⟨p, hfront⟩ := exists_front_of_mem_onsets hu
    have hnone := not_unreachable_after hy hseq hi hfront.dead hij hj
    rw [(mem_onsets.1 hv).2.2] at hnone
    cases hnone
  obtain ⟨i, hi⟩ := List.mem_iff_getElem?.1 hxy
  obtain ⟨j, hj⟩ := List.mem_iff_getElem?.1 hzy
  obtain rfl : i = j :=
    Nat.le_antisymm (Nat.le_of_not_lt (hafter hz hx hj hi)) (Nat.le_of_not_lt (hafter hx hz hi hj))
  exact Option.some.inj (hi.symm.trans hj)

/-- `z` is `x` or stands to the left of it in a sequence. -/
def Heads (o : Outline) (r : RuleProvider) (z x : Site × Outline) : Prop :=
  z = x ∨ ∃ y ∈ o.table r, y.2.kind.isSequence = true ∧
    ∃ i j : Nat, i < j ∧ (o.kids r y)[i]? = some z ∧ (o.kids r y)[j]? = some x

theorem Heads.exists_front (h : o.Heads r z x) (hz : z ∈ o.onsets r) : ∃ y, o.Front r y x := by
  obtain ⟨p, hfront⟩ := exists_front_of_mem_onsets hz
  rcases h with rfl | ⟨y, hy, hseq, i, j, hij, hi, hj⟩
  · exact ⟨p, hfront⟩
  · have hlive := hfront.live
    rw [parent_unique hfront.parent hy hfront.kid (List.mem_of_getElem? hi)] at hlive
    exact ⟨y, hy, List.mem_of_getElem? hj, hlive,
      unreachable_after hseq hi hfront.dead (Nat.le_of_lt hij) hj⟩

theorem Heads.unique (h : o.Heads r z x) (h' : o.Heads r z' x) (hz : z ∈ o.onsets r)
    (hz' : z' ∈ o.onsets r) : z = z' := by
  rcases h with rfl | ⟨y, hy, hseq, i, j, -, hi, hj⟩
  · rcases h' with rfl | ⟨y, hy, hseq, i, j, -, hi, hj⟩
    · rfl
    · exact onset_unique hy hseq hz hz' (List.mem_of_getElem? hj) (List.mem_of_getElem? hi)
  · rcases h' with rfl | ⟨y', hy', -, i', j', -, hi', hj'⟩
    · exact onset_unique hy hseq hz hz' (List.mem_of_getElem? hi) (List.mem_of_getElem? hj)
    · obtain rfl := parent_unique hy hy' (List.mem_of_getElem? hj) (List.mem_of_getElem? hj')
      exact onset_unique hy hseq hz hz' (List.mem_of_getElem? hi) (List.mem_of_getElem? hi')

theorem Front.exists_onset (hlaid : o.Laid) (h : o.Front r y x) (hi : (o.kids r y)[i]? = some x) :
    ∃ k ≤ i, (k < i → y.2.kind.isSequence = true) ∧
      ∃ z ∈ o.onsets r, (o.kids r y)[k]? = some z := by
  -- From right to left, as far as the statements are dead.
  induction i using Nat.strongRecOn generalizing x with
  | _ i ih =>
    obtain ⟨hstatement, hclause⟩ := NodeKind.of_role_statement (h.role hlaid)
    by_cases hx : x.1.unreachable = true
    · exact ⟨i, Nat.le_refl i, fun hlt => absurd hlt (Nat.lt_irrefl i), x,
        mem_onsets.2 ⟨h.mem, hstatement, hx⟩, hi⟩
    obtain ⟨j, q, hj, hseq, hq, hdead⟩ : ∃ j q, i = j + 1 ∧ y.2.kind.isSequence = true ∧
        (o.kids r y)[j]? = some q ∧ q.1.reachable = false := by
      by_contra hnone
      refine hx ((unreachable_iff h.parent hi).2 ⟨hclause, h, fun j q hj hseq hq => ?_⟩)
      by_contra hdead
      exact hnone ⟨j, q, hj, hseq, hq, Bool.eq_false_iff.2 hdead⟩
    obtain ⟨k, hk, -, hz⟩ :=
      ih j (by omega) ⟨h.parent, List.mem_of_getElem? hq, h.live, hdead⟩ hq
    exact ⟨k, by omega, fun _ => hseq, hz⟩

/-- Dead code begins at every front or before it. -/
theorem Front.exists_heads (hlaid : o.Laid) (h : o.Front r y x) :
    ∃ z ∈ o.onsets r, o.Heads r z x := by
  obtain ⟨i, hi⟩ := List.mem_iff_getElem?.1 h.kid
  obtain ⟨k, hk, hseq, z, hz, hget⟩ := h.exists_onset hlaid hi
  refine ⟨z, hz, ?_⟩
  rcases Nat.eq_or_lt_of_le hk with rfl | hlt
  · exact .inl (Option.some.inj (hget.symm.trans hi))
  · exact .inr ⟨y, h.parent, hseq hlt, k, i, hlt, hget, hi⟩

/-- **One beginning.** Every dead node stands in or behind one statement at which dead code
begins. -/
theorem existsUnique_onset (hlaid : o.Laid) (hb : b ∈ o.table r) (hdead : b.1.reachable = false) :
    ∃! z, z ∈ o.onsets r ∧ ∃ x ∈ o.table r, b ∈ o.subtree r x ∧ o.Heads r z x := by
  obtain ⟨y, x, hfront, hbx⟩ := exists_front hb hdead
  obtain ⟨z, hz, hheads⟩ := hfront.exists_heads hlaid
  refine ⟨z, ⟨hz, x, hfront.mem, hbx, hheads⟩, ?_⟩
  rintro z' ⟨hz', x', -, hbx', hheads'⟩
  obtain ⟨y', hfront'⟩ := hheads'.exists_front hz'
  obtain rfl := hfront'.unique hfront hbx' hbx
  exact hheads'.unique hheads hz' hz

theorem onset_of_subtree (hx : x ∈ o.onsets r) (hz : z ∈ o.onsets r) (hmem : z ∈ o.subtree r x) :
    x = z := by
  obtain ⟨y, hfront⟩ := exists_front_of_mem_onsets hx
  obtain ⟨y', hfront'⟩ := exists_front_of_mem_onsets hz
  exact hfront.unique hfront' hmem (self_mem_subtree z)

theorem Front.live_of_subtree (h : o.Front r y x) (hb : b ∈ o.table r) (hmem : x ∈ o.subtree r b)
    (hne : b ≠ x) : b.1.reachable = true := by
  rcases (mem_subtree_kid_iff hb h.parent h.kid).1 hmem with heq | hy
  · exact absurd heq.symm hne
  · exact reachable_of_subtree hy h.live

/-! ## Reports -/

def deadReport (x : Site × Outline) : Diagnostic :=
  ⟨.unreachableStatement, "unreachable statement", x.2.location⟩

theorem announced_of_mem (hx : x ∈ o.table r) : (o.subject r).announced (o.live r) x.1.id =
    if x.2.kind.isStatement && x.1.unreachable then [deadReport x] else [] := by
  have hnode : (o.subject r).tree.node? x.1.id = some (nodeAt x) := node?_subject hx
  have hstatement : (o.subject r).tree.isStatement x.1.id = x.2.kind.isStatement := by
    rw [Tree.isStatement, hnode]
    rfl
  have hbegins : (o.subject r).tree.beginsDeadCode (o.live r) x.1.id = x.1.unreachable :=
    (unreachable_eq hx).symm
  rw [Subject.announced, hstatement, hbegins, hnode]
  rfl

theorem map_id_table : (o.table r).map (fun x => x.1.id) = List.range o.size := by
  rw [List.range_eq_range']
  exact ids_sites root o

theorem announced_eq_map : (List.range o.size).flatMap ((o.subject r).announced (o.live r)) =
    (o.onsets r).map deadReport := by
  have hall : ∀ xs ⊆ o.table r,
      (xs.map fun x => x.1.id).flatMap ((o.subject r).announced (o.live r)) =
        (xs.filter fun x => x.2.kind.isStatement && x.1.unreachable).map deadReport := by
    intro xs hxs
    induction xs with
    | nil => rfl
    | cons x rest ih =>
      obtain ⟨hx, hrest⟩ := List.cons_subset.1 hxs
      rw [List.map_cons, List.flatMap_cons, ih hrest, announced_of_mem hx, List.filter_cons]
      split
      · rfl
      · rfl
  rw [← map_id_table (r := r)]
  exact hall _ (List.Subset.refl _)

theorem lines_onsets {first final : Nat} (ho : Spans none [o] first final) :
    ((o.onsets r).map fun x => x.2.location.line).Pairwise (· < ·) := by
  have hids : (o.onsets r).Pairwise fun a b => a.1.id < b.1.id := by
    have hrange : ((o.table r).map fun x => x.1.id).Pairwise (· < ·) := by
      rw [map_id_table]
      exact List.pairwise_lt_range
    exact (List.pairwise_map.1 hrange).filter _
  refine List.pairwise_map.2 (hids.imp_of_mem fun {a b} ha hb hlt => ?_)
  obtain ⟨hat, hka, -⟩ := mem_onsets.1 ha
  obtain ⟨hbt, hkb, -⟩ := mem_onsets.1 hb
  exact line_lt ho hat hbt hka hkb hlt

end Outline

namespace Tree

/-- `r` stands to the left of `m` in a sequence. -/
def Precedes (t : Tree) (r m : NodeId) : Prop :=
  ∃ s kind children, t.Has s kind children ∧ kind.isSequence = true ∧
    ∃ i j : Nat, i < j ∧ children[i]? = some r ∧ children[j]? = some m

/-- `n` stands in `r` or in something to the right of `r` in its sequence. -/
def Covers (t : Tree) (r n : NodeId) : Prop :=
  ∃ m ∈ t.lineage n, r = m ∨ t.Precedes r m

end Tree

namespace Stmt

/-- The nodes mark the dead code of a program, each region of it once. -/
structure MarksDeadCode (program : Stmt) (rules : RuleProvider) (marks : List NodeId) : Prop where
  /-- Control comes to all that is around a mark, but not to the mark. -/
  unreachable : ∀ r ∈ marks, r < (Tree.ofProgram program).size ∧
    program.Finds rules .reachable r false ∧
    ∀ a ∈ (Tree.ofProgram program).lineage r, a ≠ r → program.Finds rules .reachable a true
  covers : ∀ n < (Tree.ofProgram program).size, program.Finds rules .reachable n false →
    ∃! r, r ∈ marks ∧ (Tree.ofProgram program).Covers r n
  separate : ∀ r ∈ marks, ∀ r' ∈ marks, r ∈ (Tree.ofProgram program).lineage r' → r = r'
  single : ∀ s kind children, (Tree.ofProgram program).Has s kind children →
    kind.isSequence = true → ∀ r ∈ marks, ∀ r' ∈ marks, r ∈ children → r' ∈ children → r = r'

variable {program : Stmt} {rules : RuleProvider} {x z b : Site × Outline}

theorem heads_iff (hz : z ∈ (program.outline 0).1.table rules)
    (hx : x ∈ (program.outline 0).1.table rules) :
    (program.outline 0).1.Heads rules z x ↔
      z.1.id = x.1.id ∨ (Tree.ofProgram program).Precedes z.1.id x.1.id := by
  constructor
  · rintro (rfl | ⟨y, hy, hseq, i, j, hij, hi, hj⟩)
    · exact .inl rfl
    · exact .inr ⟨y.1.id, _, _, (has_iff hy).2 ⟨rfl, rfl⟩, hseq, i, j, hij,
        (Outline.getElem?_kids_iff hy hz).2 hi, (Outline.getElem?_kids_iff hy hx).2 hj⟩
  · rintro (hid | ⟨s, kind, children, hhas, hseq, i, j, hij, hi, hj⟩)
    · exact .inl (Outline.eq_of_id_eq hz hx hid)
    · obtain ⟨y, hy, rfl, rfl⟩ := exists_site_of_has rules hhas
      exact .inr ⟨y, hy, hseq, i, j, hij, (Outline.getElem?_kids_iff hy hz).1 hi,
        (Outline.getElem?_kids_iff hy hx).1 hj⟩

theorem covers_iff (hz : z ∈ (program.outline 0).1.table rules)
    (hb : b ∈ (program.outline 0).1.table rules) :
    (Tree.ofProgram program).Covers z.1.id b.1.id ↔
      ∃ x ∈ (program.outline 0).1.table rules, b ∈ (program.outline 0).1.subtree rules x ∧
        (program.outline 0).1.Heads rules z x := by
  constructor
  · rintro ⟨m, hm, hheads⟩
    obtain ⟨x, hx, rfl⟩ := Tree.exists_site _ _
      (Nat.lt_of_le_of_lt (Tree.le_of_mem_lineage hm) (Tree.id_lt_size hb))
    exact ⟨x, hx, (Outline.mem_lineage_iff hx hb).1 hm, (heads_iff hz hx).2 hheads⟩
  · rintro ⟨x, hx, hbx, hheads⟩
    exact ⟨x.1.id, (Outline.mem_lineage_iff hx hb).2 hbx, (heads_iff hz hx).1 hheads⟩

theorem marks_onsets (program : Stmt) (rules : RuleProvider) : program.MarksDeadCode rules
    (((program.outline 0).1.onsets rules).map fun x => x.1.id) where
  unreachable := by
    intro id hid
    obtain ⟨x, hx, rfl⟩ := List.mem_map.1 hid
    obtain ⟨y, hfront⟩ := Outline.exists_front_of_mem_onsets hx
    refine ⟨Tree.id_lt_size hfront.mem, (finds_of_mem hfront.mem).2 hfront.dead, fun a ha hne => ?_⟩
    obtain ⟨b, hb, rfl⟩ := Tree.exists_site _ _
      (Nat.lt_of_le_of_lt (Tree.le_of_mem_lineage ha) (Tree.id_lt_size hfront.mem))
    apply (finds_of_mem hb).2
    exact hfront.live_of_subtree hb ((Outline.mem_lineage_iff hb hfront.mem).1 ha)
      fun heq => hne (congrArg (fun z => z.1.id) heq)
  covers := by
    intro n hn hdead
    obtain ⟨b, hb, rfl⟩ := Tree.exists_site _ _ hn
    obtain ⟨z, ⟨hz, hcovers⟩, hunique⟩ := Outline.existsUnique_onset (program.laid_outline 0) hb
      ((finds_of_mem hb).1 hdead)
    refine ⟨z.1.id, ⟨List.mem_map.2 ⟨z, hz, rfl⟩,
      (covers_iff (Outline.mem_onsets.1 hz).1 hb).2 hcovers⟩, ?_⟩
    rintro id ⟨hid, hcovers'⟩
    obtain ⟨z', hz', rfl⟩ := List.mem_map.1 hid
    rw [hunique z' ⟨hz', (covers_iff (Outline.mem_onsets.1 hz').1 hb).1 hcovers'⟩]
  separate := by
    intro id hid id' hid' hmem
    obtain ⟨x, hx, rfl⟩ := List.mem_map.1 hid
    obtain ⟨z, hz, rfl⟩ := List.mem_map.1 hid'
    rw [Outline.onset_of_subtree hx hz
      ((Outline.mem_lineage_iff (Outline.mem_onsets.1 hx).1 (Outline.mem_onsets.1 hz).1).1 hmem)]
  single := by
    intro s kind children hhas hseq id hid id' hid' hmem hmem'
    obtain ⟨x, hx, rfl⟩ := List.mem_map.1 hid
    obtain ⟨z, hz, rfl⟩ := List.mem_map.1 hid'
    obtain ⟨y, hy, rfl, rfl⟩ := exists_site_of_has rules hhas
    obtain ⟨i, hi⟩ := List.mem_iff_getElem?.1 hmem
    obtain ⟨j, hj⟩ := List.mem_iff_getElem?.1 hmem'
    rw [Outline.getElem?_kids_iff hy (Outline.mem_onsets.1 hx).1] at hi
    rw [Outline.getElem?_kids_iff hy (Outline.mem_onsets.1 hz).1] at hj
    rw [Outline.onset_unique hy hseq hx hz (List.mem_of_getElem? hi) (List.mem_of_getElem? hj)]

variable {w : World Attribute.schema} {config : Config}

theorem deadReports_eq (h : (program.subject rules).Diagnoses (.ok ())
    (Analysis.start (program.subject rules) config).world w) :
    w.deadReports = ((program.outline 0).1.onsets rules).map Outline.deadReport := by
  rw [Scene.deadReports_of_diagnoses (g := program.scene rules config False)
    (program.shaped_outline 0) rfl h]
  exact Outline.announced_eq_map

/-- **Dead code is reported once.** If the first diagnosis ends well, its reports of unreachable
statements belong to nodes that mark the dead code of the program: for every node that control
does not come to, exactly one of them stands around it or to the left of something around it.
The reports come in the order of their lines. -/
theorem dead_code_reported_once (program : Stmt) (rules : RuleProvider) (config : Config)
    {w : World Attribute.schema}
    (h : (program.subject rules).Diagnoses (.ok ())
      (Analysis.start (program.subject rules) config).world w) :
    ∃ marks, program.MarksDeadCode rules marks ∧
      List.Forall₂ (fun d r => ∃ n, (Tree.ofProgram program).node? r = some n ∧
        d = ⟨.unreachableStatement, "unreachable statement", n.location⟩) w.deadReports marks ∧
      (w.deadReports.map fun d => d.location.line).Pairwise (· < ·) := by
  rw [deadReports_eq h]
  refine ⟨_, marks_onsets program rules, ?_, ?_⟩
  · rw [List.forall₂_map_left_iff, List.forall₂_map_right_iff, List.forall₂_same]
    intro x hx
    exact ⟨Outline.nodeAt x, Outline.node?_subject (Outline.mem_onsets.1 hx).1, rfl⟩
  · rw [List.map_map]
    exact Outline.lines_onsets (program.spans_outline 0 none)

/-- A loop that is never entered, an arm with a statement behind its jump, and two statements
behind a return. -/
def deserted : Stmt :=
  .block [.whileLoop (.bool false) (.block [.expr (.int 1), .breakTo none]),
    .switch (.int 1) [.mk false [.breakTo none, .expr (.int 2)], .mk true []],
    .returns none, .block [.expr (.int 3), .expr (.int 4)], .expr (.int 5)]

/-- The body of the loop is reported as a whole, and so is what stands behind the return. -/
theorem dead_code_reported_once_deserted : ∃ w marks,
    (deserted.subject ({} : Rules)).Diagnoses (.ok ())
      (Analysis.start (deserted.subject ({} : Rules)) {}).world w ∧
    deserted.MarksDeadCode ({} : Rules) marks ∧
    List.Forall₂ (fun d r => ∃ n, (Tree.ofProgram deserted).node? r = some n ∧
      d = ⟨.unreachableStatement, "unreachable statement", n.location⟩) w.deadReports marks ∧
    w.deadReports.map (fun d => d.location.line) = [3, 9, 12] ∧
    (w.deadReports.map fun d => d.location.line).Pairwise (· < ·) := by
  let rules : Rules := {}
  let g : Scene := deserted.scene rules {} False
  have hs : g.outline.Shaped := deserted.shaped_outline 0
  have hpermits : g.Permits .diagnose := nofun
  have hinv : g.Inv True (Analysis.start g.subject {}).world [] := Scene.inv_start {} rfl
  obtain ⟨w, e, ⟨⟩, hl, hgave, -⟩ := Scene.exists_reply hs id (by decide) hinv hpermits 0 none
  have hfirst : (deserted.subject rules).Diagnoses (.ok ())
      (Analysis.start (deserted.subject rules) {}).world w := ⟨_, 0, none, e, hl, hgave⟩
  obtain ⟨marks, hmarks, hreports, hlines⟩ := dead_code_reported_once deserted rules {} hfirst
  refine ⟨w, marks, hfirst, hmarks, hreports, ?_, hlines⟩
  rw [deadReports_eq hfirst]
  decide

end Stmt

end Attribution
