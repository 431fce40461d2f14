import Attribution.Proofs.Reference.Table
/-!
# Where control comes to

The equations for reachability: whether control comes to a node follows from its
parent and from the child to its left.
-/

namespace Attribution

open Engine

namespace Outline

variable {o : Outline} {r : RuleProvider} {x y : Site × Outline}

theorem meets_kid {T : Terms} {i : Nat} {z : Site × Outline} {post : NodeId → Prop}
    (hz : (o.kids r y)[i]? = some z) (h : post z.1.id) : ((nodeAt y).child i).Meets T post :=
  Node.meets_child (children_get hz) h


section Equations

variable {exact : Prop} {a b : Attribute} {id m : NodeId}

theorem meets_read {post : b.Value → Prop} (hask : o.Feeds r a id b m)
    (h : ∀ v, (exact → v = o.reference r b m) → post v) :
    (Equation.read b m).Meets (o.terms r exact a id) post :=
  Equation.meets_read hask fun p hp => h p.value fun he => (hp he).1

theorem meets_read_mem {post : b.Value → Prop} (hx : x ∈ o.table r)
    (hask : o.Feeds r a id b x.1.id) (h : ∀ v, (exact → v = o.valueAt r x b) → post v) :
    (Equation.read b x.1.id).Meets (o.terms r exact a id) post := by
  refine meets_read hask fun v hv => h v fun he => ?_
  rw [hv he, reference_of_mem hx]

theorem meets_reachable (hx : x ∈ o.table r) :
    ((o.subject r).reachable x.1.id).Meets (o.terms r exact .reachable x.1.id)
      fun v => exact → v = o.valueAt r x .reachable := by
  rcases exists_parent hx with rfl | ⟨y, hy, i, before, hi, hsite, hzero, hsucc⟩
  · rw [Subject.reachable, parent?_root hx]
    exact fun _ => rfl
  have hmem := List.mem_of_getElem? hi
  have hindex : (nodeAt x).index = i := (of_mem_offspring hi).2.1
  rw [Subject.reachable, parent?_of_mem hx hi]
  refine .bind (Subject.meets_node (node?_subject hx) ?_)
  refine .bind (Subject.meets_node (node?_subject hy) ?_)
  have hparent : ∀ v, (exact → v = o.valueAt r y .reachable) → x.1.reachable = y.1.reachable →
      exact → v = o.valueAt r x .reachable := by
    intro v hv heq he
    rw [hv he]
    exact heq.symm
  rw [hindex, show (nodeAt y).kind = y.2.kind from rfl]
  cases i with
  | zero =>
    rw [if_neg (by simp), if_neg (by simp)]
    refine meets_read_mem hy (feeds_parent hy hmem (.inl rfl)) fun v hv => hparent v hv ?_
    rw [hsite, hzero rfl]
    rfl
  | succ j =>
    obtain ⟨z, hz, hbefore, hid⟩ := hsucc j rfl
    have hzt := mem_table_of_mem_offspring hy (List.mem_of_getElem? hz)
    have hreach : x.1.reachable = if y.2.kind.isSequence then o.valueAt r z .completes
        else if y.2.kind = .whileLoop && j + 1 = 1 then
          y.1.reachable && (Tree.ofOutline o).constantOf (y.1.id + 1) != some (.bool false)
        else y.1.reachable := by
      rw [hsite, hbefore]
      rfl
    by_cases hseq : y.2.kind.isSequence = true
    · rw [if_pos (by simp [hseq])]
      refine .bind (meets_kid hz ?_)
      refine meets_read_mem hzt (feeds_before hx hzt hid).1 fun v hv he => ?_
      rw [hv he]
      exact (hreach.trans (if_pos hseq)).symm
    rw [if_neg hseq] at hreach
    rw [if_neg (by simp [hseq])]
    by_cases hloop : (y.2.kind = .whileLoop && j + 1 = 1) = true
    · rw [if_pos hloop] at hreach
      rw [if_pos hloop]
      refine .bind (meets_read_mem hy (feeds_parent hy hmem (.inl rfl)) fun v hv => ?_)
      cases v with
      | false =>
        refine fun he => ?_
        change false = x.1.reachable
        rw [hreach, ← show false = y.1.reachable from hv he]
        rfl
      | true =>
        -- The guard is the first child.
        obtain ⟨-, rfl⟩ : y.2.kind = .whileLoop ∧ j = 0 := by simpa using hloop
        obtain ⟨w, hw, hwid⟩ : ∃ w, (o.kids r y)[0]? =
            some w ∧ w.1.id = y.1.id + 1 := by
          obtain ⟨_, -, hw0, -⟩ := childSites_get y.2.children hz
          exact ⟨z, hz, (hw0 rfl).2⟩
        have hwt := mem_table_of_mem_offspring hy (List.mem_of_getElem? hw)
        refine .bind (meets_kid hw ?_)
        refine .bind (meets_read_mem hwt (feeds_of_phase hwt (by decide) _) fun c hc => ?_)
        refine fun he => ?_
        change (c != some (.bool false)) = x.1.reachable
        rw [hreach, ← show true = y.1.reachable from hv he, hc he, ← hwid]
        rfl
    · rw [if_neg hloop] at hreach
      rw [if_neg hloop]
      exact meets_read_mem hy (feeds_parent hy hmem (.inl rfl)) fun v hv => hparent v hv hreach

/-! ## Unreachable statements -/

theorem meets_beginsDeadCode (hx : x ∈ o.table r) :
    ((o.subject r).beginsDeadCode x.1.id).Meets (o.terms r exact .unreachable x.1.id)
      fun v => exact → v = o.valueAt r x .unreachable := by
  rcases exists_parent hx with rfl | ⟨y, hy, i, before, hi, hsite, hzero, hsucc⟩
  · rw [Subject.beginsDeadCode, parent?_root hx]
    exact fun _ => rfl
  have hmem := List.mem_of_getElem? hi
  have hindex : (nodeAt x).index = i := (of_mem_offspring hi).2.1
  have hunreach : x.1.unreachable = (!x.2.kind.isClause && !x.1.reachable && y.1.reachable &&
      Site.preceded y.2 before) := by
    rw [hsite]
    rfl
  rw [Subject.beginsDeadCode, parent?_of_mem hx hi]
  refine .bind (Subject.meets_node (node?_subject hx) ?_)
  rw [show (nodeAt x).kind = x.2.kind from rfl]
  change Equation.Meets _ _ fun v => exact → v = x.1.unreachable
  rw [hunreach]
  split
  case h_4 =>
    rename_i hnot₁ hnot₂ hnot₃
    have hclause : x.2.kind.isClause = false := by
      cases hk : x.2.kind with
      | case d => exact absurd hk (hnot₁ d)
      | catchClause type => exact absurd hk (hnot₂ type)
      | finallyClause => exact absurd hk hnot₃
      | _ => rfl
    refine .bind (meets_read_mem hx (feeds_reachable hx (by simp)) fun v hv => ?_)
    cases v with
    | true =>
      refine fun he => ?_
      rw [← show true = x.1.reachable from hv he]
      simp
    | false =>
      refine .bind (meets_read_mem hy (feeds_parent hy hmem (.inr rfl)) fun w hw => ?_)
      cases w with
      | false =>
        refine fun he => ?_
        rw [← show false = y.1.reachable from hw he]
        simp
      | true =>
        have hrest : ∀ b, (exact → b = Site.preceded y.2 before) → exact →
            b = (!x.2.kind.isClause && !x.1.reachable && y.1.reachable &&
              Site.preceded y.2 before) := by
          intro b hb he
          rw [hb he, hclause, ← show false = x.1.reachable from hv he,
            ← show true = y.1.reachable from hw he]
          rfl
        refine .bind (Subject.meets_node (node?_subject hy) ?_)
        rw [hindex, show (nodeAt y).kind = y.2.kind from rfl]
        cases i with
        | zero =>
          rw [if_neg (by simp)]
          refine hrest true fun _ => ?_
          rw [hzero rfl]
          rfl
        | succ j =>
          obtain ⟨z, hz, hbefore, hid⟩ := hsucc j rfl
          have hzt := mem_table_of_mem_offspring hy (List.mem_of_getElem? hz)
          by_cases hseq : y.2.kind.isSequence = true
          · rw [if_pos (by simp [hseq])]
            refine .bind (meets_kid hz ?_)
            refine meets_read_mem hzt (feeds_before hx hzt hid).2 fun b hb => hrest b fun he => ?_
            rw [hb he, hbefore]
            exact (if_pos hseq).symm
          · rw [if_neg (by simp [hseq])]
            refine hrest true fun _ => ?_
            rw [hbefore]
            exact (if_neg hseq).symm
  all_goals
    rename_i hk
    refine fun _ => ?_
    rw [hk]
    rfl

theorem meets_unreachable (hx : x ∈ o.table r) :
    ((o.subject r).unreachable x.1.id).Meets (o.terms r exact .unreachable x.1.id)
      fun v => exact → v = o.valueAt r x .unreachable := by
  refine .bind ((meets_beginsDeadCode hx).mono fun v hv => ?_)
  cases v with
  | false => exact hv
  | true => exact .bind (Subject.meets_node (node?_subject hx) hv)

end Equations

end Outline

end Attribution
