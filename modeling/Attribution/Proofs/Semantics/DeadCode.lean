import Attribution.Proofs.Semantics.Origin
/-!
# Dead code

What the analysis finds in code that control does not come to: nothing in it is
reached, control does not leave it, and no jump or exception does
(`dead_code_inert`). In a sequence of statements everything after dead code is dead.
-/

namespace Attribution

namespace Flow

variable {kind : NodeKind} {own : NodeKind → Bool} {labels : Part → LabelSet} {parts : List Part}

theorem foldl_union_of_empty (h : ∀ q ∈ parts, labels q = .empty) :
    parts.foldl (fun (found : LabelSet) q => found.union (labels q)) .empty = .empty := by
  induction parts with
  | nil => rfl
  | cons q rest ih =>
    rw [List.foldl_cons, h q List.mem_cons_self]
    exact ih fun q hq => h q (List.mem_cons_of_mem _ hq)

theorem escapesBy_of_empty (h : ∀ q ∈ parts, labels q = .empty) :
    escapesBy kind own labels parts = .empty := by
  have hall : (parts.filter fun q => q.kind.isStatement).foldl
      (fun (found : LabelSet) q => found.union (labels q)) .empty = .empty :=
    foldl_union_of_empty fun q hq => h q (List.mem_of_mem_filter hq)
  unfold escapesBy
  rw [hall]
  dsimp only
  split
  · rfl
  · split
    · rename_i last hlast
      split
      · rfl
      · exact h last (List.mem_of_mem_tail (List.mem_of_find?_eq_some hlast))
    · rfl
  · split
    · rfl
    · rfl

end Flow

namespace Outline

variable {o : Outline} {r : RuleProvider} {x y z b : Site × Outline} {i k : Nat}

theorem labels_of_unreachable (hx : x.1.reachable = false) (j : Jump) :
    labelsOf j (o.part r x).flow = .empty := by
  induction hn : x.2.size using Nat.strongRecOn generalizing x with
  | _ n ih =>
    have hparts : ∀ q ∈ (o.kids r x).map (o.part r), labelsOf j q.flow = .empty := by
      intro q hq
      obtain ⟨y, hy, rfl⟩ := List.mem_map.1 hq
      have hlt := lt_of_mem_offspring hy
      have hend := end_le_of_mem_offspring hy
      exact ih y.2.size (by omega) ((dead_of_unreachable hx).2 y hy) rfl
    rw [labels_part]
    split
    · exact Flow.jumpBy_of_dead hx _
    · exact Flow.jumpBy_of_dead hx _
    · rfl
    · rfl
    · exact Flow.escapesBy_of_empty hparts

theorem unreachable_subtree (hx : x.1.reachable = false) (hb : b ∈ o.subtree r x) :
    b.1.reachable = false := by
  rw [Bool.eq_false_iff]
  intro h
  rw [reachable_of_subtree hb h] at hx
  cases hx

/-- In a sequence control comes to a child from the child to its left. -/
theorem reachable_next (hseq : x.2.kind.isSequence = true) (hz : (o.kids r x)[i]? = some z)
    (hy : (o.kids r x)[i + 1]? = some y) : y.1.reachable = (o.part r z).flow.completes := by
  obtain ⟨before, hsite, -, hsucc⟩ := childSites_get x.2.children hy
  obtain ⟨z', hz', rfl, -⟩ := hsucc i rfl
  obtain rfl := Option.some.inj (hz.symm.trans hz')
  rw [hsite]
  exact if_pos hseq

theorem exists_left (hy : (o.kids r x)[i + 1]? = some y) : ∃ z, (o.kids r x)[i]? = some z := by
  have hlt := (List.getElem?_eq_some_iff.1 hy).1
  exact ⟨_, List.getElem?_eq_getElem (Nat.lt_of_succ_lt hlt)⟩

theorem unreachable_after (hseq : x.2.kind.isSequence = true) (hz : (o.kids r x)[i]? = some z)
    (hdead : z.1.reachable = false) (hik : i ≤ k) (hy : (o.kids r x)[k]? = some y) :
    y.1.reachable = false := by
  induction hik generalizing y with
  | refl =>
    obtain rfl := Option.some.inj (hz.symm.trans hy)
    exact hdead
  | step _ ih =>
    obtain ⟨w, hw⟩ := exists_left hy
    rw [reachable_next hseq hw hy]
    exact (dead_of_unreachable (ih hw)).1.completes

end Outline

namespace Stmt

theorem exists_site_of_has (rules : RuleProvider) {program : Stmt} {s : NodeId} {kind : NodeKind}
    {children : List NodeId} (h : (Tree.ofProgram program).Has s kind children) :
    ∃ y ∈ (program.outline 0).1.table rules, y.2.kind = kind ∧
      ((program.outline 0).1.kids rules y).map (fun z => z.1.id) = children := by
  obtain ⟨node, hnode, hkind⟩ := h
  obtain ⟨y, hy, rfl, -⟩ := Tree.exists_site_of_node? _ _ hnode
  exact ⟨y, hy, (has_iff hy).1 ⟨node, hnode, hkind⟩⟩

/-- **Dead code is inert.** What stands in an unreachable node is unreachable, the node
does not complete, and nothing leaves it. So what stands around a reachable node is
reachable. In a sequence nothing comes back to life. -/
theorem dead_code_inert (program : Stmt) (rules : RuleProvider) :
    (∀ n < (Tree.ofProgram program).size, program.Finds rules .reachable n false →
      (∀ d, n ∈ (Tree.ofProgram program).lineage d → program.Finds rules .reachable d false) ∧
      program.Finds rules .completes n false ∧ program.Finds rules .breaks n .empty ∧
      program.Finds rules .continues n .empty ∧ program.Finds rules .propagated n .empty) ∧
    (∀ n < (Tree.ofProgram program).size, program.Finds rules .reachable n true →
      ∀ a ∈ (Tree.ofProgram program).lineage n, program.Finds rules .reachable a true) ∧
    ∀ s kind children (i k : Nat) c d, (Tree.ofProgram program).Has s kind children →
      kind.isSequence = true → children[i]? = some c → children[k]? = some d → i < k →
      program.Finds rules .reachable c false → program.Finds rules .reachable d false := by
  refine ⟨fun n hn h => ?_, fun n hn h a ha => ?_, ?_⟩
  · obtain ⟨x, hx, rfl⟩ := Tree.exists_site _ _ hn
    have hdead : x.1.reachable = false := (finds_of_mem hx).1 h
    refine ⟨fun d hd => ?_, ?_, ?_, ?_, ?_⟩
    · obtain ⟨b, hb, rfl⟩ := Tree.exists_site _ _ (Tree.lt_size_of_mem_lineage hd hn)
      apply (finds_of_mem hb).2
      exact Outline.unreachable_subtree hdead ((Outline.mem_lineage_iff hx hb).1 hd)
    · exact (finds_of_mem hx).2 (Outline.dead_of_unreachable hdead).1.completes
    · exact (finds_of_mem hx).2 (Outline.labels_of_unreachable hdead .break)
    · exact (finds_of_mem hx).2 (Outline.labels_of_unreachable hdead .continue)
    · exact (finds_of_mem hx).2 (Outline.propagated_of_dead hdead)
  · obtain ⟨b, hb, rfl⟩ := Tree.exists_site _ _ hn
    obtain ⟨x, hx, rfl⟩ := Tree.exists_site _ _
      (Nat.lt_of_le_of_lt (Tree.le_of_mem_lineage ha) hn)
    apply (finds_of_mem hx).2
    exact Outline.reachable_of_subtree ((Outline.mem_lineage_iff hx hb).1 ha) ((finds_of_mem hb).1 h)
  · intro s kind children i k c d hhas hseq hc hd hik h
    obtain ⟨x, hx, rfl, rfl⟩ := exists_site_of_has rules hhas
    rw [List.getElem?_map, Option.map_eq_some_iff] at hc hd
    obtain ⟨z, hz, rfl⟩ := hc
    obtain ⟨y, hy, rfl⟩ := hd
    have hzt := Outline.mem_table_of_mem_offspring hx (List.mem_of_getElem? hz)
    have hyt := Outline.mem_table_of_mem_offspring hx (List.mem_of_getElem? hy)
    apply (finds_of_mem hyt).2
    exact Outline.unreachable_after hseq hz ((finds_of_mem hzt).1 h) (Nat.le_of_lt hik) hy

def neverEntered : Stmt :=
  .labeled "out" (.whileLoop (.bool false) (.block [.breakTo (some "out"), .throws ⟨"A"⟩]))

/-- The jump and the exception of the loop's body stay without effect. -/
theorem dead_code_inert_neverEntered :
    neverEntered.Finds {} .reachable 3 false ∧ neverEntered.Finds {} .reachable 5 false ∧
      neverEntered.Finds {} .breaks 3 .empty ∧ neverEntered.Finds {} .propagated 3 .empty := by
  have hdead : neverEntered.Finds {} .reachable 3 false := (finds_iff (by decide)).2 rfl
  obtain ⟨hinside, -, hbreaks, -, hpropagated⟩ :=
    (dead_code_inert neverEntered {}).1 3 (by decide) hdead
  exact ⟨hdead, hinside 5 (by decide +kernel), hbreaks, hpropagated⟩

end Stmt

end Attribution
