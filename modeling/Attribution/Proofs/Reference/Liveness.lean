import Attribution.Proofs.PackedSet
import Attribution.Proofs.Reference.Parts
/-!
# Where control does not come to

A node that control does not come to is not left by it either: the node does not
complete, no jump leaves it, and control comes to none of its children. So whatever
is around a reachable node is reachable.
-/

namespace Attribution

namespace Flow

/-- Control does not leave the node, by its end or by a jump. -/
structure Dead (f : Flow) : Prop where
  completes : f.completes = false
  labels : ∀ j l, (Outline.labelsOf j f).contains l = false

variable {κ : NodeId → Option Const} {p : Site} {kind : NodeKind} {parts : List Part} {q : Part}

theorem Dead.breaksFree (h : Dead q.flow) : breaksFree q = false :=
  h.labels .break .unlabeled

theorem completes_getLast?_of_dead (h : ∀ q ∈ parts, Dead q.flow) (hq : parts.getLast? = some q) :
    q.flow.completes = false :=
  (h q (List.mem_of_getLast? hq)).completes

theorem completesBy_of_dead (hp : p.reachable = false) (h : ∀ q ∈ parts, Dead q.flow) :
    completesBy κ p kind parts = false := by
  unfold completesBy
  split
  -- Jumps never complete.
  case h_1 | h_2 | h_3 | h_4 => rfl
  case h_5 | h_6 | h_7 | h_8 =>
    split
    · exact completes_getLast?_of_dead h ‹_›
    · exact hp
  case h_9 cond yes no =>
    rw [(h yes (by simp)).completes, (h no (by simp)).completes]
    rfl
  case h_10 cond body =>
    rw [hp]
    rfl
  case h_11 body cond =>
    have hbody := h body (by simp)
    have hcontinues : ∀ l, body.flow.continues.contains l = false := hbody.labels .continue
    have hlabel : (p.label.any fun label => body.flow.continues.contains (.named label)) = false := by
      cases p.label with
      | none => rfl
      | some label => exact hcontinues (.named label)
    dsimp only
    rw [hbody.completes, hbody.breaksFree, hlabel, hcontinues]
    rfl
  case h_12 label body =>
    have hbody := h body (by simp)
    have hbreaks : ∀ l, body.flow.breaks.contains l = false := hbody.labels .break
    rw [hbody.completes, hbreaks]
    rfl
  case h_13 selector cases =>
    have hcases : ∀ q ∈ cases, Dead q.flow := fun q hq => h q (List.mem_cons_of_mem _ hq)
    split
    · exact hp
    · rename_i last hlast
      have hfree : cases.any Flow.breaksFree = false :=
        List.any_eq_false.2 fun q hq => Bool.eq_false_iff.1 (hcases q hq).breaksFree
      rw [completes_getLast?_of_dead hcases (Option.filter_eq_some_iff.1 hlast).1, hfree]
      rfl
  case h_14 body clauses =>
    have hcatches : ((catches clauses).any fun q => q.flow.completes) = false :=
      List.any_eq_false.2 fun q hq => Bool.eq_false_iff.1
        (h q (List.mem_cons_of_mem _ (List.mem_filter.1 hq).1)).completes
    dsimp only
    rw [(h body List.mem_cons_self).completes, hcatches]
    split
    · rfl
    · rfl
  case h_15 => exact hp

theorem exists_of_escapesBy {own : NodeKind → Bool} {labels : Part → LabelSet} {l : JumpLabel}
    (h : (escapesBy kind own labels parts).contains l = true) :
    ∃ q ∈ parts, (labels q).contains l = true := by
  have hall : ∀ {s : LabelSet}, s = (parts.filter fun q => q.kind.isStatement).foldl
      (fun found q => found.union (labels q)) .empty → s.contains l = true →
      ∃ q ∈ parts, (labels q).contains l = true := by
    rintro _ rfl hl
    rcases PackedSet.contains_foldl_union.1 hl with hempty | ⟨q, hq, hl⟩
    · cases hempty
    · exact ⟨q, (List.mem_filter.1 hq).1, hl⟩
  unfold escapesBy at h
  dsimp only at h
  split at h
  · exact hall rfl (PackedSet.contains_without.1 h).1
  · split at h
    · rename_i last hlast
      split at h
      · exact hall rfl h
      · exact ⟨last, List.mem_of_mem_tail (List.mem_of_find?_eq_some hlast), h⟩
    · exact hall rfl h
  · split at h
    · exact hall rfl (PackedSet.contains_without.1 h).1
    · exact hall rfl h

theorem jumpBy_of_dead (hp : p.reachable = false) (label : Option String) :
    jumpBy p kind label = .empty := by
  unfold jumpBy
  rw [hp]
  split
  · rfl
  · rfl

end Flow

namespace Outline

variable {o : Outline} {r : RuleProvider} {x y : Site × Outline}

theorem labels_of_dead (hx : x.1.reachable = false)
    (h : ∀ y ∈ o.kids r x, (o.part r y).flow.Dead) (j : Jump) (l : JumpLabel) :
    (labelsOf j (o.part r x).flow).contains l = false := by
  have hparts : ∀ {kind : NodeKind} {own : NodeKind → Bool},
      (Flow.escapesBy kind own (fun q => labelsOf j q.flow)
        ((o.kids r x).map (o.part r))).contains l = false := by
    intro kind own
    rw [Bool.eq_false_iff]
    intro hl
    obtain ⟨q, hq, hl⟩ := Flow.exists_of_escapesBy hl
    obtain ⟨y, hy, rfl⟩ := List.mem_map.1 hq
    rw [(h y hy).labels] at hl
    cases hl
  rw [labels_part]
  split
  · rw [Flow.jumpBy_of_dead hx]
    rfl
  · rw [Flow.jumpBy_of_dead hx]
    rfl
  · rfl
  · rfl
  · exact hparts

/-- Control comes to a child only from its parent or from the child to its left. -/
theorem kids_unreachable (hx : x.1.reachable = false)
    (h : ∀ y ∈ o.kids r x, y.1.reachable = false → (o.part r y).flow.completes = false)
    {i : Nat} (hy : (o.kids r x)[i]? = some y) : y.1.reachable = false := by
  induction i generalizing y with
  | zero =>
    obtain ⟨before, hsite, hzero, -⟩ := childSites_get x.2.children hy
    obtain ⟨rfl, -⟩ := hzero rfl
    rw [hsite]
    exact hx
  | succ i ih =>
    obtain ⟨before, hsite, -, hsucc⟩ := childSites_get x.2.children hy
    obtain ⟨z, hz, rfl, -⟩ := hsucc i rfl
    have hleft := h z (List.mem_of_getElem? hz) (ih hz)
    rw [hsite]
    change (if _ then (o.part r z).flow.completes else _) = false
    rw [hleft, hx]
    split
    · rfl
    · split
      · rfl
      · rfl

/-- Neither the node nor anything in it is reached or left. -/
theorem dead_of_unreachable (hx : x.1.reachable = false) :
    (o.part r x).flow.Dead ∧ ∀ y ∈ o.kids r x, y.1.reachable = false := by
  induction hn : x.2.size using Nat.strongRecOn generalizing x with
  | _ n ih =>
    have hkids : ∀ y ∈ o.kids r x, y.1.reachable = false → (o.part r y).flow.Dead := by
      intro y hy hdead
      have hlt := lt_of_mem_offspring hy
      have hend := end_le_of_mem_offspring hy
      exact (ih y.2.size (by omega) hdead rfl).1
    have hunreachable : ∀ y ∈ o.kids r x, y.1.reachable = false := by
      intro y hy
      obtain ⟨i, hi⟩ := List.mem_iff_getElem?.1 hy
      exact kids_unreachable hx (fun z hz hdead => (hkids z hz hdead).completes) hi
    have hall : ∀ y ∈ o.kids r x, (o.part r y).flow.Dead :=
      fun y hy => hkids y hy (hunreachable y hy)
    refine ⟨⟨?_, labels_of_dead hx hall⟩, hunreachable⟩
    rw [completes_part]
    apply Flow.completesBy_of_dead hx
    intro q hq
    obtain ⟨y, hy, rfl⟩ := List.mem_map.1 hq
    exact hall y hy

theorem reachable_parent (hy : y ∈ o.kids r x) (h : y.1.reachable = true) :
    x.1.reachable = true := by
  cases hx : x.1.reachable with
  | true => rfl
  | false =>
    rw [(dead_of_unreachable hx).2 y hy] at h
    cases h

end Outline

end Attribution
