import Attribution.Proofs.Reference.Completion
/-!
# What leaves a node

The equations for the jumps and the exceptions that leave a node.
-/

namespace Attribution

open Engine

namespace Outline

variable {o : Outline} {r : RuleProvider} {x y : Site × Outline}

section Equations

variable {exact : Prop}

/-! ## Escaping jumps -/

def jumpAttr : Jump → Attribute
  | .break => .breaks
  | .continue => .continues

theorem jumpAttr_exit (j : Jump) :
    jumpAttr j = .completes ∨ jumpAttr j = .breaks ∨ jumpAttr j = .continues := by
  cases j with
  | «break» => exact .inr (.inl rfl)
  | «continue» => exact .inr (.inr rfl)

theorem meets_escaping (j : Jump) (hx : x ∈ o.table r) (hy : y ∈ o.kids r x)
    {post : LabelSet → Prop} (h : ∀ v, (exact → v = labelsOf j (o.part r y).flow) → post v) :
    (j.escaping y.1.id).Meets (o.terms r exact (jumpAttr j) x.1.id) post := by
  have hyt := mem_table_of_mem_offspring hx hy
  cases j with
  | «break» => exact meets_read_mem hyt (feeds_child hx hy (by simp) (jumpAttr_exit .break)) h
  | «continue» => exact meets_read_mem hyt (feeds_child hx hy (by simp) (jumpAttr_exit .continue)) h

theorem meets_escapingAny (j : Jump) (hx : x ∈ o.table r) (ys : List (Site × Outline))
    (hys : ∀ y ∈ ys, y ∈ o.kids r x) : ∀ found expected : LabelSet, (exact → found = expected) →
    (Subject.escapingAny j found (ys.map fun y => y.1.id)).Meets
      (o.terms r exact (jumpAttr j) x.1.id)
      fun v => exact → v = (ys.map (o.part r)).foldl
        (fun found q => found.union (labelsOf j q.flow)) expected := by
  induction ys with
  | nil => exact fun found expected hfound => hfound
  | cons y rest ih =>
    intro found expected hfound
    rw [List.map_cons, Subject.escapingAny]
    refine .bind (meets_escaping j hx (hys y List.mem_cons_self) fun v hv => ?_)
    refine ih (fun z hz => hys z (List.mem_cons_of_mem _ hz)) _ _ fun he => ?_
    rw [hfound he, hv he]

theorem statements_eq (hx : x ∈ o.table r) : (o.subject r).tree.statements (nodeAt x) =
    ((o.kids r x).filter fun y => y.2.kind.isStatement).map fun y => y.1.id := by
  rw [Tree.statements, children_nodeAt (Tree.ofOutline o).constantOf (o.subject r), List.filter_map]
  congr 1
  refine List.filter_congr fun y hy => ?_
  change Tree.isStatement _ y.1.id = _
  rw [Tree.isStatement, node?_subject (mem_table_of_mem_offspring hx hy)]
  rfl

theorem meets_absorb (j : Jump) (hs : o.Shaped) (hx : x ∈ o.table r) {labels expected : LabelSet}
    (hlabels : exact → labels = expected) {post : LabelSet → Prop}
    (hpost : ∀ v, (exact → v = match x.2.kind with
      | .labeled label => expected.without (.named label)
      | .tryCatch =>
        match Flow.finalizer? ((o.kids r x).map (o.part r)).tail with
        | some last => if last.flow.completes then expected else labelsOf j last.flow
        | none => expected
      | kind => if stops j kind then expected.without .unlabeled else expected) → post v) :
    ((o.subject r).absorb j x.1.id (nodeAt x) labels).Meets (o.terms r exact (jumpAttr j) x.1.id)
      post := by
  unfold Subject.absorb
  rw [show (nodeAt x).kind = x.2.kind from rfl]
  cases hk : x.2.kind with
  | tryCatch =>
    obtain ⟨body, catches, last, hparts⟩ := exists_tryParts hs hx hk
    simp only [hk, hparts.kids, List.cons_append, List.map_cons, List.tail_cons,
      hparts.finalizer?] at hpost
    refine .bind (meets_tryShape hx hparts ?_)
    rcases hparts.last with rfl | ⟨f, rfl, -⟩
    · exact hpost labels hlabels
    · have hf := hparts.last_mem (f := f) List.mem_cons_self
      refine .bind (meets_read_mem (mem_table_of_mem_offspring hx hf)
        (feeds_child hx hf (by simp) (jumpAttr_exit j)) fun c hc => ?_)
      cases c with
      | true =>
        refine hpost labels fun he => ?_
        change labels = if (o.part r f).flow.completes then expected else _
        rw [← show true = (o.part r f).flow.completes from hc he, hlabels he]
        rfl
      | false =>
        refine meets_escaping j hx hf fun v hv => hpost v fun he => ?_
        change v = if (o.part r f).flow.completes then expected else _
        rw [← show false = (o.part r f).flow.completes from hc he, hv he]
        rfl
  | switch =>
    rw [hk] at hpost
    cases j with
    | «break» => exact hpost _ fun he => by rw [hlabels he]; rfl
    | «continue» => exact hpost _ fun he => by rw [hlabels he]; rfl
  | labeled label =>
    rw [hk] at hpost
    exact hpost _ fun he => by rw [hlabels he]
  | _ =>
    rw [hk] at hpost
    refine hpost _ fun he => ?_
    rw [hlabels he]
    cases j with
    | «break» => rfl
    | «continue» => rfl

theorem meets_jumpLabels (j : Jump) (hx : x ∈ o.table r) {label : Option String}
    (hfail : exact → Flow.jumpBy x.1 x.2.kind label = .empty →
      o.reference r (jumpAttr j) x.1.id = (jumpAttr j).sentinel) {post : LabelSet → Prop}
    (hpost : ∀ v, (exact → v = Flow.jumpBy x.1 x.2.kind label) → post v) :
    ((o.subject r).jumpLabels x.1.id (nodeAt x) label).Meets
      (o.terms r exact (jumpAttr j) x.1.id) post := by
  have hjump : (o.subject r).tree.jump? x.1.id = resolveJump x.1.scopes x.2.kind :=
    Tree.jump?_of_mem hx
  unfold Flow.jumpBy at hpost hfail
  unfold Subject.jumpLabels
  rw [hjump]
  cases hres : resolveJump x.1.scopes x.2.kind with
  | none =>
    rw [hres] at hpost
    exact hpost _ fun _ => rfl
  | some target =>
    rw [hres] at hpost hfail
    cases target with
    | error e =>
      refine .bind (Equation.meets_failWith (fun he => hfail he rfl) ?_)
      exact hpost _ fun _ => rfl
    | ok target =>
      have hask : o.Feeds r (jumpAttr j) x.1.id .reachable x.1.id := by
        refine feeds_reachable hx ?_
        rcases jumpAttr_exit j with h | h | h
        · exact .inl h
        · exact .inr (.inl h)
        · exact .inr (.inr (.inl h))
      refine .bind (meets_read_mem hx hask fun live hlive => ?_)
      cases live with
      | true =>
        refine hpost _ fun he => ?_
        change _ = if x.1.reachable = true then _ else _
        rw [← show true = x.1.reachable from hlive he]
        rfl
      | false =>
        refine hpost _ fun he => ?_
        change _ = if x.1.reachable = true then _ else _
        rw [← show false = x.1.reachable from hlive he]
        rfl

theorem escaping_parts (j : Jump) (x : Site × Outline) :
    (((o.kids r x).filter fun y => y.2.kind.isStatement).map (o.part r)).foldl
      (fun found q => found.union (labelsOf j q.flow)) PackedSet.empty =
    ((((o.kids r x).map (o.part r)).filter fun q => q.kind.isStatement).foldl
      (fun found q => found.union (labelsOf j q.flow)) PackedSet.empty) := by
  rw [List.filter_map]
  rfl

theorem meets_escapes_parts (exact : Prop) (j : Jump) (hs : o.Shaped) (hx : x ∈ o.table r) :
    Equation.Meets (o.terms r exact (jumpAttr j) x.1.id)
      (do
        let labels ← Subject.escapingAny j .empty ((o.subject r).tree.statements (nodeAt x))
        (o.subject r).absorb j x.1.id (nodeAt x) labels)
      fun v => exact → v = Flow.escapesBy x.2.kind (stops j) (fun q => labelsOf j q.flow)
        ((o.kids r x).map (o.part r)) := by
  rw [statements_eq hx]
  refine .bind ((meets_escapingAny j hx _ (fun y hy => (List.mem_filter.1 hy).1) _ _
    fun _ => rfl).mono fun labels hlabels => ?_)
  refine meets_absorb j hs hx hlabels fun v hv he => ?_
  rw [hv he, escaping_parts]
  rfl

theorem meets_escapes (j : Jump) (hs : o.Shaped) (hx : x ∈ o.table r)
    (href : o.reference r (jumpAttr j) x.1.id = (jumpAttr j).sentinel ↔
      labelsOf j (o.part r x).flow = .empty) :
    ((o.subject r).escapes j x.1.id).Meets (o.terms r exact (jumpAttr j) x.1.id)
      fun v => exact → v = labelsOf j (o.part r x).flow := by
  have hinner := meets_escapes_parts exact j hs hx
  have hjump : ∀ label, labelsOf j (o.part r x).flow =
      Flow.jumpBy x.1 x.2.kind label →
      ((o.subject r).jumpLabels x.1.id (nodeAt x) label).Meets
        (o.terms r exact (jumpAttr j) x.1.id)
        fun v => exact → v = labelsOf j (o.part r x).flow := by
    intro label hl
    refine meets_jumpLabels j hx (fun _ hempty => href.2 (hl.trans hempty)) fun v hv he => ?_
    rw [hv he, hl]
  have hflow := labels_part (o := o) (r := r) j x
  refine .bind (Subject.meets_node (node?_subject hx) ?_)
  rw [show (nodeAt x).kind = x.2.kind from rfl]
  cases hk : x.2.kind with
  | breakTo label =>
    rw [hk] at hflow hjump
    cases j with
    | «break» => exact hjump label hflow
    | «continue» => exact fun _ => hflow.symm
  | continueTo label =>
    rw [hk] at hflow hjump
    cases j with
    | «break» => exact fun _ => hflow.symm
    | «continue» => exact hjump label hflow
  | _ =>
    rw [hk] at hflow hinner
    cases j with
    | «break» => exact hinner.mono fun v hv he => (hv he).trans hflow.symm
    | «continue» => exact hinner.mono fun v hv he => (hv he).trans hflow.symm

/-! ## Exceptions -/

theorem meets_raised (hx : x ∈ o.table r) :
    ((o.subject r).raised x.1.id).Meets (o.terms r exact .raised x.1.id)
      fun v => exact → v = o.valueAt r x .raised := by
  have hvalue : o.valueAt r x .raised = Flow.raisedBy (o.subject r) x.1.id := rfl
  unfold Flow.raisedBy at hvalue
  unfold Subject.raised
  cases hby : (o.subject r).rules.raised (o.subject r).tree x.1.id with
  | ok types =>
    rw [hby] at hvalue
    exact fun _ => hvalue.symm
  | error violation =>
    rw [hby] at hvalue
    refine .bind (Subject.meets_node (node?_subject hx) ?_)
    refine .bind (Equation.meets_failWith (fun _ => ?_) fun _ => hvalue.symm)
    rw [reference_of_mem hx]
    exact hvalue

theorem meets_propagated_kid (hx : x ∈ o.table r) (hy : y ∈ o.kids r x) {post : TypeSet → Prop}
    (h : ∀ v, (exact → v = (o.part r y).flow.propagated) → post v) :
    (Equation.read .propagated y.1.id).Meets (o.terms r exact .propagated x.1.id) post :=
  meets_read_mem (mem_table_of_mem_offspring hx hy) (feeds_propagated hx hy) h

theorem meets_propagatedAny (hx : x ∈ o.table r) (ys : List (Site × Outline))
    (hys : ∀ y ∈ ys, y ∈ o.kids r x) : ∀ found expected : TypeSet, (exact → found = expected) →
    (Subject.propagatedAny found (ys.map fun y => y.1.id)).Meets
      (o.terms r exact .propagated x.1.id)
      fun v => exact → v = (ys.map (o.part r)).foldl
        (fun found q => found.union q.flow.propagated) expected := by
  induction ys with
  | nil => exact fun found expected hfound => hfound
  | cons y rest ih =>
    intro found expected hfound
    rw [List.map_cons, Subject.propagatedAny]
    refine .bind (meets_propagated_kid hx (hys y List.mem_cons_self) fun v hv => ?_)
    refine ih (fun z hz => hys z (List.mem_cons_of_mem _ hz)) _ _ fun he => ?_
    rw [hfound he, hv he]

theorem isUncaught_zip (ids : List NodeId) (types : List ExcType)
    (hlen : types.length = ids.length) :
    (o.subject r).isUncaught (ids.zip types) = fun type => !types.any (r.isSubtype type) := by
  funext type
  rw [Subject.isUncaught]
  congr 1
  induction ids generalizing types with
  | nil =>
    cases types with
    | nil => rfl
    | cons type types => cases hlen
  | cons id ids ih =>
    cases types with
    | nil => cases hlen
    | cons caught types =>
      rw [List.zip_cons_cons, List.any_cons, List.any_cons, ih types (Nat.succ.inj hlen)]
      rfl

theorem meets_leavingTry {body : Site × Outline} {catches last : List (Site × Outline)}
    (hx : x ∈ o.table r) (h : TryParts o r x body catches last) :
    ((o.subject r).leavingTry x.1.id).Meets (o.terms r exact .propagated x.1.id)
      fun v => exact → v = o.leaving r body (catches ++ last) := by
  have hlen := TryParts.length_types h.isCatch
  have hcatches : ((catches.map fun y => y.1.id).zip (TryParts.types catches)).map Prod.fst =
      catches.map fun y => y.1.id := by
    apply List.map_fst_zip
    rw [List.length_map]
    omega
  rw [leaving, uncaught, h.finalizer?, h.catches_eq, h.caught_eq]
  refine .bind (meets_tryShape hx h ?_)
  refine .bind (meets_propagated_kid hx h.body_mem fun thrown hthrown => ?_)
  dsimp only
  rw [hcatches, isUncaught_zip _ _ (by rw [List.length_map]; exact hlen)]
  refine .bind ((meets_propagatedAny hx catches (fun c hc => h.catch_mem hc) _
    ((o.part r body).flow.propagated.retain fun type =>
      !(TryParts.types catches).any (r.isSubtype type))
    fun he => by rw [hthrown he]).mono fun inner hinner => ?_)
  rcases h.last with rfl | ⟨f, rfl, -⟩
  · exact hinner
  · have hf := h.last_mem (f := f) List.mem_cons_self
    have hft := mem_table_of_mem_offspring hx hf
    refine .bind (meets_propagated_kid hx hf fun last hlast => ?_)
    refine .bind (meets_read_mem hft (feeds_of_phase hft (by decide) _) fun c hc => ?_)
    cases c with
    | true =>
      refine fun he => ?_
      change inner.union last = if (o.part r f).flow.completes then _ else _
      rw [← show true = (o.part r f).flow.completes from hc he, hinner he, hlast he]
      rfl
    | false =>
      refine fun he => ?_
      change last = if (o.part r f).flow.completes then _ else _
      rw [← show false = (o.part r f).flow.completes from hc he, hlast he]
      rfl

theorem meets_propagated (hs : o.Shaped) (hx : x ∈ o.table r) :
    ((o.subject r).propagated x.1.id).Meets (o.terms r exact .propagated x.1.id)
      fun v => exact → v = (o.part r x).flow.propagated := by
  refine .bind (meets_read_mem hx (feeds_of_phase hx (by decide) _) fun live hlive => ?_)
  cases live with
  | false =>
    refine fun he => ?_
    rw [propagated_of_dead (hlive he).symm]
  | true =>
    refine .bind (meets_read_mem hx (feeds_raised hx) fun own hown => ?_)
    refine .bind (Subject.meets_node (node?_subject hx) ?_)
    rw [show (nodeAt x).kind = x.2.kind from rfl]
    by_cases hk : x.2.kind = .tryCatch
    · obtain ⟨body, catches, last, hparts⟩ := exists_tryParts hs hx hk
      rw [if_pos hk]
      refine .bind ((meets_leavingTry hx hparts).mono fun v hv he => ?_)
      have hkids : o.kids r x = body :: (catches ++ last) := hparts.kids
      rw [propagated_try hk hkids (hlive he).symm, hv he]
      exact congrArg (PackedSet.union · _) (hown he)
    · rw [if_neg hk, children_nodeAt (Tree.ofOutline o).constantOf (o.subject r)]
      refine (meets_propagatedAny hx _ (fun y hy => hy) own (Flow.raisedBy (o.subject r) x.1.id)
        hown).mono fun v hv he => ?_
      rw [hv he, propagated_part hk (hlive he).symm]

end Equations

end Outline

end Attribution
