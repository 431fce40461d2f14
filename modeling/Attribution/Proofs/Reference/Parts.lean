import Attribution.Attribute.Escape
import Attribution.Proofs.Reference.Table
/-!
# Nodes by their parts

What a node tells its surroundings, kind by kind: whether control goes past its end
(`completes_part`), which jumps leave it (`labels_part`), and which exceptions
(`propagated_part`).
-/

namespace Attribution

namespace Outline

variable {o : Outline} {r : RuleProvider} {x y z b : Site × Outline} {zs cs : List (Site × Outline)}

theorem flow_part (x : Site × Outline) : (o.part r x).flow =
    .ofParts (Tree.ofOutline o).constantOf (o.subject r) x.1 x.2.kind ((o.kids r x).map (o.part r)) :=
  flow_eq x.1 x.2

/-! ## Completion -/

theorem completes_part (x : Site × Outline) : (o.part r x).flow.completes =
    Flow.completesBy (Tree.ofOutline o).constantOf x.1 x.2.kind ((o.kids r x).map (o.part r)) := by
  rw [flow_part]
  rfl

theorem completes_branches (hk : x.2.kind = .ifThen) (hkids : o.kids r x = [b, y, z]) :
    (o.part r x).flow.completes = ((o.part r y).flow.completes || (o.part r z).flow.completes) := by
  rw [completes_part, hk, hkids]
  rfl

theorem completes_while (hk : x.2.kind = .whileLoop) (hkids : o.kids r x = [y, z]) :
    (o.part r x).flow.completes = (x.1.reachable &&
      ((Tree.ofOutline o).constantOf y.1.id != some (.bool true) ||
        Flow.breaksFree (o.part r z))) := by
  rw [completes_part, hk, hkids]
  rfl

theorem completes_do (hk : x.2.kind = .doWhile) (hkids : o.kids r x = [z, y]) :
    (o.part r x).flow.completes =
      (((o.part r z).flow.completes || ((o.part r z).flow.continues.contains .unlabeled ||
          x.1.label.any fun label => (o.part r z).flow.continues.contains (.named label))) &&
        (Tree.ofOutline o).constantOf y.1.id != some (.bool true) ||
          Flow.breaksFree (o.part r z)) := by
  rw [completes_part, hk, hkids]
  rfl

theorem completes_labeled {label : String} (hk : x.2.kind = .labeled label)
    (hkids : o.kids r x = [z]) : (o.part r x).flow.completes =
      ((o.part r z).flow.completes || (o.part r z).flow.breaks.contains (.named label)) := by
  rw [completes_part, hk, hkids]
  rfl

theorem completes_switch (hk : x.2.kind = .switch) (hkids : o.kids r x = y :: zs) :
    (o.part r x).flow.completes =
      match (zs.map (o.part r)).getLast?.filter fun _ =>
        (zs.map (o.part r)).any fun c => c.kind = .case true with
      | none => x.1.reachable
      | some last => last.flow.completes || (zs.map (o.part r)).any Flow.breaksFree := by
  rw [completes_part, hk, hkids]
  rfl

theorem completes_try (hk : x.2.kind = .tryCatch) (hkids : o.kids r x = b :: cs) :
    (o.part r x).flow.completes =
      match Flow.finalizer? (cs.map (o.part r)) with
      | some last => ((o.part r b).flow.completes ||
          (Flow.catches (cs.map (o.part r))).any fun q => q.flow.completes) && last.flow.completes
      | none => (o.part r b).flow.completes ||
          (Flow.catches (cs.map (o.part r))).any fun q => q.flow.completes := by
  rw [completes_part, hk, hkids]
  rfl

/-! ## Jumps -/

def labelsOf : Jump → Flow → LabelSet
  | .break, f => f.breaks
  | .continue, f => f.continues

/-- The statements that stop a jump without label. -/
def stops : Jump → NodeKind → Bool
  | .break, kind => kind.isLoop || kind = .switch
  | .continue, kind => kind.isLoop

theorem labels_part (j : Jump) (x : Site × Outline) : labelsOf j (o.part r x).flow =
    match j, x.2.kind with
    | .break, .breakTo label | .continue, .continueTo label => Flow.jumpBy x.1 x.2.kind label
    | .break, .continueTo _ | .continue, .breakTo _ => .empty
    | j, kind => Flow.escapesBy kind (stops j) (fun q => labelsOf j q.flow)
      ((o.kids r x).map (o.part r)) := by
  rw [flow_part]
  cases j with
  | «break» => cases hk : x.2.kind <;> rfl
  | «continue» => cases hk : x.2.kind <;> rfl

def escaping (o : Outline) (r : RuleProvider) (j : Jump) (x : Site × Outline) : LabelSet :=
  (((o.kids r x).map (o.part r)).filter fun q => q.kind.isStatement).foldl
    (fun found q => found.union (labelsOf j q.flow)) .empty

theorem labels_try (hk : x.2.kind = .tryCatch) (hkids : o.kids r x = b :: cs) (j : Jump) :
    labelsOf j (o.part r x).flow =
      match Flow.finalizer? (cs.map (o.part r)) with
      | some last => if last.flow.completes then o.escaping r j x else labelsOf j last.flow
      | none => o.escaping r j x := by
  have htail : ((o.kids r x).map (o.part r)).tail = cs.map (o.part r) := by
    rw [hkids]
    rfl
  rw [labels_part, hk, ← htail]
  cases j with
  | «break» => rfl
  | «continue» => rfl

/-! ## Exceptions -/

theorem propagated_of_dead (hreach : x.1.reachable = false) :
    (o.part r x).flow.propagated = .empty := by
  rw [flow_part]
  change Flow.propagatedBy (o.subject r) x.1 x.2.kind ((o.kids r x).map (o.part r)) = .empty
  unfold Flow.propagatedBy
  rw [hreach]
  rfl

theorem propagated_part (hk : x.2.kind ≠ .tryCatch) (hreach : x.1.reachable = true) :
    (o.part r x).flow.propagated = ((o.kids r x).map (o.part r)).foldl
      (fun found q => found.union q.flow.propagated) (Flow.raisedBy (o.subject r) x.1.id) := by
  rw [flow_part]
  change Flow.propagatedBy (o.subject r) x.1 x.2.kind ((o.kids r x).map (o.part r)) = _
  unfold Flow.propagatedBy
  rw [hreach, Bool.not_true]
  dsimp only
  rw [if_neg Bool.false_ne_true]
  split
  · rename_i hkind _
    exact absurd hkind hk
  · rfl

def uncaught (o : Outline) (r : RuleProvider) (b : Site × Outline) (cs : List (Site × Outline)) :
    TypeSet :=
  (Flow.catches (cs.map (o.part r))).foldl (fun found q => found.union q.flow.propagated)
    ((o.part r b).flow.propagated.retain fun type =>
      !((cs.map (o.part r)).filterMap fun q => q.kind.caught?).any (r.isSubtype type))

def leaving (o : Outline) (r : RuleProvider) (b : Site × Outline) (cs : List (Site × Outline)) :
    TypeSet :=
  match Flow.finalizer? (cs.map (o.part r)) with
  | none => o.uncaught r b cs
  | some last =>
    if last.flow.completes then (o.uncaught r b cs).union last.flow.propagated
    else last.flow.propagated

theorem propagated_try (hk : x.2.kind = .tryCatch) (hkids : o.kids r x = b :: cs)
    (hreach : x.1.reachable = true) :
    (o.part r x).flow.propagated =
      (Flow.raisedBy (o.subject r) x.1.id).union (o.leaving r b cs) := by
  have hflow : (o.part r x).flow.propagated =
      Flow.propagatedBy (o.subject r) x.1 .tryCatch (o.part r b :: cs.map (o.part r)) := by
    rw [flow_part, hk, hkids]
    rfl
  rw [hflow, Flow.propagatedBy, hreach]
  rfl

end Outline

end Attribution
