import Attribution.Proofs.Reference.Parts
import Attribution.Proofs.Reference.Reachability
/-!
# Where control goes past

The equations for completion. Those of a try statement need its clauses
(`TryParts`), which the equations for jumps and exceptions share.
-/

namespace Attribution

open Engine

namespace Outline

variable {o : Outline} {r : RuleProvider} {x y : Site × Outline}

section Equations

variable {exact : Prop}

/-! ## The parts of a try statement -/

/-- The children of a try statement: the body, the handlers, the finalizer. -/
structure TryParts (o : Outline) (r : RuleProvider) (x body : Site × Outline)
    (catches last : List (Site × Outline)) : Prop where
  kids : o.kids r x = body :: catches ++ last
  isClause : body.2.kind.isClause = false
  isCatch : ∀ c ∈ catches, c.2.kind.isCatch = true
  last : last = [] ∨ ∃ f, last = [f] ∧ f.2.kind = .finallyClause

theorem exists_tryParts (hs : o.Shaped) (hx : x ∈ o.table r) (hk : x.2.kind = .tryCatch) :
    ∃ body catches last, TryParts o r x body catches last := by
  have hfits := fits_of_mem o hs hx
  rw [hk] at hfits
  obtain ⟨b, cs, fs, hchildren, hbody, hcatch, hlast⟩ := hfits
  have hmap : (o.kids r x).map Prod.snd = b :: cs ++ fs :=
    (map_snd_childSites _ _ _ _).trans hchildren
  obtain ⟨front, last, hkids, hfront, hl⟩ := List.map_eq_append_iff.1 hmap
  obtain ⟨body, catches, rfl, hb, hc⟩ := List.map_eq_cons_iff.1 hfront
  refine ⟨body, catches, last, hkids, hb ▸ hbody, fun c hmem => ?_, ?_⟩
  · exact hcatch c.2 (hc ▸ List.mem_map.2 ⟨c, hmem, rfl⟩)
  · rcases hlast with rfl | ⟨f, rfl, hf⟩
    · exact .inl (List.map_eq_nil_iff.1 hl)
    · obtain ⟨g, hg, rfl⟩ := List.map_eq_singleton_iff.1 hl
      exact .inr ⟨g, hg, hf⟩

namespace TryParts

variable {body : Site × Outline} {catches last : List (Site × Outline)}

def types (catches : List (Site × Outline)) : List ExcType :=
  catches.filterMap fun c => c.2.kind.caught?

theorem length_types (h : ∀ c ∈ catches, c.2.kind.isCatch = true) :
    (types catches).length = catches.length := by
  induction catches with
  | nil => rfl
  | cons c rest ih =>
    have hc := h c List.mem_cons_self
    have hrest := ih fun d hd => h d (List.mem_cons_of_mem _ hd)
    cases hk : c.2.kind with
    | catchClause type =>
      simp only [types, List.filterMap_cons, hk, NodeKind.caught?, List.length_cons]
      exact congrArg (· + 1) hrest
    | _ =>
      rw [hk] at hc
      cases hc

theorem body_mem (h : TryParts o r x body catches last) : body ∈ o.kids r x := by
  rw [h.kids]
  simp

theorem catch_mem (h : TryParts o r x body catches last) {c : Site × Outline} (hc : c ∈ catches) :
    c ∈ o.kids r x := by
  rw [h.kids]
  simp [hc]

theorem last_mem (h : TryParts o r x body catches last) {f : Site × Outline} (hf : f ∈ last) :
    f ∈ o.kids r x := by
  rw [h.kids]
  simp [hf]

theorem not_finally (h : ∀ c ∈ catches, c.2.kind.isCatch = true) {c : Site × Outline}
    (hc : c ∈ catches) : c.2.kind ≠ .finallyClause := by
  intro hk
  have hcatch := h c hc
  rw [hk] at hcatch
  cases hcatch

theorem finalizer? (h : TryParts o r x body catches last) :
    Flow.finalizer? ((catches ++ last).map (o.part r)) = last.head?.map (o.part r) := by
  have hnone : (catches.map (o.part r)).find? (fun q => q.kind = .finallyClause) = none := by
    rw [List.find?_eq_none]
    intro q hq hkind
    obtain ⟨c, hc, rfl⟩ := List.mem_map.1 hq
    exact not_finally h.isCatch hc (of_decide_eq_true hkind)
  rw [Flow.finalizer?, List.map_append, List.find?_append, hnone]
  rcases h.last with rfl | ⟨f, rfl, hf⟩
  · rfl
  · have hpart : (o.part r f).kind = .finallyClause := hf
    simp [hpart]

theorem catches_eq (h : TryParts o r x body catches last) :
    Flow.catches ((catches ++ last).map (o.part r)) = catches.map (o.part r) := by
  have hall : (catches.map (o.part r)).filter (fun q => q.kind.isCatch) =
      catches.map (o.part r) := by
    rw [List.filter_eq_self]
    intro q hq
    obtain ⟨c, hc, rfl⟩ := List.mem_map.1 hq
    exact h.isCatch c hc
  rw [Flow.catches, List.map_append, List.filter_append, hall]
  rcases h.last with rfl | ⟨f, rfl, hf⟩
  · simp
  · simp [hf, NodeKind.isCatch]

theorem caught_eq (h : TryParts o r x body catches last) :
    ((catches ++ last).map (o.part r)).filterMap (fun q => q.kind.caught?) = types catches := by
  have hnone : last.filterMap (fun c => c.2.kind.caught?) = [] := by
    rcases h.last with rfl | ⟨f, rfl, hf⟩
    · rfl
    · rw [List.filterMap_cons, hf]
      rfl
  calc ((catches ++ last).map (o.part r)).filterMap (fun q => q.kind.caught?)
    _ = (catches ++ last).filterMap fun c => c.2.kind.caught? := List.filterMap_map
    _ = types catches := by rw [List.filterMap_append, hnone, List.append_nil, types]

end TryParts

theorem meets_tryClauses {T : Terms} {catches last : List (Site × Outline)}
    (hcatch : ∀ c ∈ catches, c.2.kind.isCatch = true)
    (hlast : last = [] ∨ ∃ f, last = [f] ∧ f.2.kind = .finallyClause)
    (hmem : ∀ y ∈ catches ++ last, y ∈ o.table r) :
    ((o.subject r).tryClauses ((catches ++ last).map fun y => y.1.id)).Meets T fun clauses =>
      clauses.1 = (catches.map fun y => y.1.id).zip (TryParts.types catches) ∧
        clauses.2 = last.head?.map fun y => y.1.id := by
  induction catches with
  | nil =>
    rcases hlast with rfl | ⟨f, rfl, hf⟩
    · exact ⟨rfl, rfl⟩
    · refine .bind (Subject.meets_node (node?_subject (hmem f (by simp))) ?_)
      refine .bind (show Equation.Meets T (.done ([], none)) _ from ?_)
      rw [show (nodeAt f).kind = .finallyClause from hf]
      exact ⟨rfl, rfl⟩
  | cons c rest ih =>
    have hc := hcatch c List.mem_cons_self
    rw [List.cons_append, List.map_cons, Subject.tryClauses]
    refine .bind (Subject.meets_node (node?_subject (hmem c (by simp))) ?_)
    refine .bind ((ih (fun d hd => hcatch d (List.mem_cons_of_mem _ hd))
      fun y hy => hmem y (List.mem_cons_of_mem _ hy)).mono fun clauses hclauses => ?_)
    obtain ⟨found, finalizer⟩ := clauses
    obtain ⟨hfound, hfinal⟩ := hclauses
    cases hk : c.2.kind with
    | catchClause type =>
      rw [show (nodeAt c).kind = .catchClause type from hk]
      refine ⟨?_, hfinal⟩
      change (c.1.id, type) :: found = _
      rw [show found = _ from hfound]
      simp [TryParts.types, hk, NodeKind.caught?]
    | _ =>
      rw [hk] at hc
      cases hc

theorem meets_tryShape {T : Terms} {body : Site × Outline} {catches last : List (Site × Outline)}
    {post : Subject.TryShape → Prop} (hx : x ∈ o.table r)
    (h : TryParts o r x body catches last)
    (hpost : post ⟨body.1.id, (catches.map fun y => y.1.id).zip (TryParts.types catches),
      last.head?.map fun y => y.1.id⟩) :
    ((o.subject r).tryShape x.1.id).Meets T post := by
  refine .bind (Subject.meets_node (node?_subject hx) ?_)
  have hchildren : (nodeAt x).children =
      body.1.id :: (catches ++ last).map fun y => y.1.id := by
    rw [children_nodeAt (Tree.ofOutline o).constantOf (o.subject r), show x.2.offspring _ (o.subject r) x.1 = _ from h.kids]
    rfl
  rw [hchildren]
  have hmem : ∀ y ∈ catches ++ last, y ∈ o.table r := fun y hy => by
    refine mem_table_of_mem_offspring hx ?_
    rw [h.kids]
    exact List.mem_cons_of_mem _ hy
  refine .bind ((meets_tryClauses h.isCatch h.last hmem).mono fun clauses hclauses => ?_)
  obtain ⟨found, finalizer⟩ := clauses
  obtain ⟨rfl, rfl⟩ := hclauses
  exact hpost

/-! ## Completion -/

theorem meets_completes_kid (hx : x ∈ o.table r) (hy : y ∈ o.kids r x) {post : Bool → Prop}
    (h : ∀ v, (exact → v = (o.part r y).flow.completes) → post v) :
    (Equation.read .completes y.1.id).Meets (o.terms r exact .completes x.1.id) post :=
  meets_read_mem (mem_table_of_mem_offspring hx hy) (feeds_child hx hy (by simp) (by simp)) h

theorem meets_breaksFree (hx : x ∈ o.table r) (hy : y ∈ o.kids r x) {post : Bool → Prop}
    (h : ∀ v, (exact → v = Flow.breaksFree (o.part r y)) → post v) :
    (Subject.breaksFree y.1.id).Meets (o.terms r exact .completes x.1.id) post := by
  refine .bind (meets_read_mem (mem_table_of_mem_offspring hx hy)
    (feeds_child hx hy (by simp) (by simp)) fun v hv => h _ fun he => ?_)
  rw [hv he]
  rfl

theorem meets_reachable_self (hx : x ∈ o.table r) {post : Bool → Prop}
    (h : ∀ v, (exact → v = x.1.reachable) → post v) :
    (Equation.read .reachable x.1.id).Meets (o.terms r exact .completes x.1.id) post :=
  meets_read_mem hx (feeds_reachable hx (by simp)) h

theorem meets_guard (hx : x ∈ o.table r) (hy : y ∈ o.kids r x) {post : Option Const → Prop}
    (h : ∀ v, (exact → v = (Tree.ofOutline o).constantOf y.1.id) → post v) :
    (Equation.read .constant y.1.id).Meets (o.terms r exact .completes x.1.id) post := by
  have hyt := mem_table_of_mem_offspring hx hy
  exact meets_read_mem hyt (feeds_of_phase hyt (by decide) _) h

theorem meets_anyBreaks (hx : x ∈ o.table r) (ys : List (Site × Outline))
    (hys : ∀ y ∈ ys, y ∈ o.kids r x) :
    (Subject.anyBreaks (ys.map fun y => y.1.id)).Meets (o.terms r exact .completes x.1.id)
      fun v => exact → v = (ys.map (o.part r)).any Flow.breaksFree := by
  induction ys with
  | nil => exact fun _ => rfl
  | cons y rest ih =>
    rw [List.map_cons, Subject.anyBreaks]
    refine .bind (meets_breaksFree hx (hys y List.mem_cons_self) fun v hv => ?_)
    cases v with
    | true =>
      refine fun he => ?_
      rw [List.map_cons, List.any_cons, ← hv he]
      rfl
    | false =>
      refine (ih fun z hz => hys z (List.mem_cons_of_mem _ hz)).mono fun w hw he => ?_
      rw [List.map_cons, List.any_cons, ← hv he, hw he]
      rfl

theorem meets_anyCompletes (hx : x ∈ o.table r) (types : List ExcType)
    (ys : List (Site × Outline)) (hys : ∀ y ∈ ys, y ∈ o.kids r x)
    (hlen : types.length = ys.length) : ∀ normal expected : Bool, (exact → normal = expected) →
    (Subject.anyCompletes normal ((ys.map fun y => y.1.id).zip types)).Meets
      (o.terms r exact .completes x.1.id)
      fun v => exact → v = (expected || (ys.map (o.part r)).any fun q => q.flow.completes) := by
  induction ys generalizing types with
  | nil =>
    intro normal expected hn he
    rw [hn he]
    simp
  | cons y rest ih =>
    intro normal expected hn
    cases types with
    | nil => cases hlen
    | cons type types =>
      rw [List.map_cons, List.zip_cons_cons, Subject.anyCompletes]
      refine .bind (meets_completes_kid hx (hys y List.mem_cons_self) fun v hv => ?_)
      refine (ih types (fun z hz => hys z (List.mem_cons_of_mem _ hz)) (Nat.succ.inj hlen) _
        (expected || (o.part r y).flow.completes) fun he => ?_).mono fun w hw he => ?_
      · rw [hn he, hv he]
      · rw [hw he, List.map_cons, List.any_cons, Bool.or_assoc]

theorem meets_labelAround {T : Terms} {post : Option String → Prop} (hx : x ∈ o.table r)
    (h : post x.1.label) : ((o.subject r).labelAround x.1.id).Meets T post := by
  rcases exists_parent hx with rfl | ⟨y, hy, i, before, hi, -⟩
  · rw [Subject.labelAround, parent?_root hx]
    exact h
  · rw [Subject.labelAround, parent?_of_mem hx hi]
    refine .bind (Subject.meets_node (node?_subject hy) ?_)
    rw [(of_mem_offspring hi).2.2.2.1] at h
    rw [show (nodeAt y).kind = y.2.kind from rfl]
    split
    · rename_i label hk
      rw [hk] at h
      exact h
    · rename_i hk
      have hnone : y.2.kind.labels? = none := by
        cases hkind : y.2.kind with
        | labeled label => exact absurd hkind (hk label)
        | _ => rfl
      rw [hnone] at h
      exact h

theorem meets_completesDoWhile {u v : Site × Outline} (hx : x ∈ o.table r)
    (hk : x.2.kind = .doWhile) (hkids : o.kids r x = [u, v]) :
    ((o.subject r).completesDoWhile x.1.id (nodeAt x)).Meets (o.terms r exact .completes x.1.id)
      fun b => exact → b = (o.part r x).flow.completes := by
  have hu : (o.kids r x)[0]? = some u := by rw [hkids]; rfl
  have hv : (o.kids r x)[1]? = some v := by rw [hkids]; rfl
  have hum := List.mem_of_getElem? hu
  have hvm := List.mem_of_getElem? hv
  rw [completes_do hk hkids]
  refine .bind (meets_kid hu ?_)
  refine .bind (meets_kid hv ?_)
  refine .bind (meets_read_mem (mem_table_of_mem_offspring hx hum)
    (feeds_child hx hum (by simp) (by simp)) fun continues hcontinues => ?_)
  refine .bind (meets_labelAround hx ?_)
  -- What remains once it is known whether the guard is ever evaluated.
  have hguard : ∀ tested expected : Bool, (exact → tested = expected) →
      Equation.Meets (o.terms r exact .completes x.1.id)
        (if tested = true then do
          let c ← Equation.read .constant v.1.id
          if (c != some (.bool true)) = true then pure true else Subject.breaksFree u.1.id
        else Subject.breaksFree u.1.id)
        fun b => exact → b = (expected &&
          (Tree.ofOutline o).constantOf v.1.id != some (.bool true) ||
            Flow.breaksFree (o.part r u)) := by
    intro tested expected htested
    cases tested with
    | false =>
      refine meets_breaksFree hx hum fun b hb he => ?_
      rw [← htested he, hb he]
      rfl
    | true =>
      refine .bind (meets_guard hx hvm fun c hc => ?_)
      by_cases hcond : (c != some (.bool true)) = true
      · rw [if_pos hcond]
        refine fun he => ?_
        rw [← htested he, ← hc he, hcond]
        rfl
      · rw [if_neg hcond]
        refine meets_breaksFree hx hum fun b hb he => ?_
        rw [← htested he, ← hc he, Bool.eq_false_iff.2 hcond, hb he]
        rfl
  refine .bind (meets_completes_kid hx hum fun completes hcompletes => ?_)
  cases completes with
  | true =>
    refine .bind (Equation.meets_pure (hguard true _ fun he => ?_))
    rw [← hcompletes he]
    rfl
  | false =>
    refine .bind (Equation.meets_pure (hguard _ _ fun he => ?_))
    rw [← hcompletes he, hcontinues he]
    rfl

theorem any_isDefault (ws : List (Site × Outline)) (hws : ∀ w ∈ ws, w ∈ o.table r) :
    (ws.map fun w => w.1.id).any
      (fun c => ((o.subject r).tree.node? c).any fun n => n.kind = .case true) =
      (ws.map (o.part r)).any fun q => q.kind = .case true := by
  induction ws with
  | nil => rfl
  | cons w rest ih =>
    rw [List.map_cons, List.map_cons, List.any_cons, List.any_cons,
      node?_subject (hws w List.mem_cons_self),
      ih fun z hz => hws z (List.mem_cons_of_mem _ hz)]
    rfl

theorem meets_completesSwitch {u : Site × Outline} {ws : List (Site × Outline)}
    (hx : x ∈ o.table r) (hk : x.2.kind = .switch) (hkids : o.kids r x = u :: ws) :
    ((o.subject r).completesSwitch x.1.id (nodeAt x)).Meets (o.terms r exact .completes x.1.id)
      fun b => exact → b = (o.part r x).flow.completes := by
  have hws : ∀ w ∈ ws, w ∈ o.kids r x := fun w hw => by rw [hkids]; simp [hw]
  have hdefault := any_isDefault ws fun w hw => mem_table_of_mem_offspring hx (hws w hw)
  rw [completes_switch hk hkids, Subject.completesSwitch,
    children_nodeAt (Tree.ofOutline o).constantOf (o.subject r), show x.2.offspring _ (o.subject r) x.1 = _ from hkids]
  simp only [List.map_cons, hdefault, List.getLast?_map]
  cases hlast : ws.getLast? with
  | none => exact meets_reachable_self hx fun v hv => hv
  | some w =>
    have hw := hws w (List.mem_of_getLast? hlast)
    cases (ws.map (o.part r)).any fun q => q.kind = .case true with
    | false => exact meets_reachable_self hx fun v hv => hv
    | true =>
      refine .bind (meets_completes_kid hx hw fun v hv => ?_)
      cases v with
      | true =>
        refine fun he => ?_
        change true = ((o.part r w).flow.completes || _)
        rw [← hv he]
        rfl
      | false =>
        refine (meets_anyBreaks hx ws hws).mono fun v' hv' he => ?_
        change v' = ((o.part r w).flow.completes || _)
        rw [← hv he, hv' he]
        rfl

theorem meets_completesTry {body : Site × Outline} {catches last : List (Site × Outline)}
    (hx : x ∈ o.table r) (hk : x.2.kind = .tryCatch) (h : TryParts o r x body catches last) :
    ((o.subject r).completesTry x.1.id).Meets (o.terms r exact .completes x.1.id)
      fun b => exact → b = (o.part r x).flow.completes := by
  have hkids : o.kids r x = body :: (catches ++ last) := h.kids
  rw [completes_try hk hkids, h.finalizer?, h.catches_eq]
  refine .bind (meets_tryShape hx h ?_)
  refine .bind (meets_completes_kid hx h.body_mem fun v hv => ?_)
  refine .bind ((meets_anyCompletes hx _ catches (fun c hc => h.catch_mem hc)
    (TryParts.length_types h.isCatch) v _ hv).mono fun normal hnormal => ?_)
  rcases h.last with rfl | ⟨f, rfl, -⟩
  · exact hnormal
  · cases normal with
    | false =>
      refine fun he => ?_
      change false = (_ && _)
      rw [← hnormal he]
      rfl
    | true =>
      refine meets_completes_kid hx (h.last_mem List.mem_cons_self) fun w hw he => ?_
      change w = (_ && (o.part r f).flow.completes)
      rw [← hnormal he, hw he]
      rfl

theorem meets_completesWhile {u v : Site × Outline} (hx : x ∈ o.table r)
    (hk : x.2.kind = .whileLoop) (hkids : o.kids r x = [u, v]) :
    Equation.Meets (o.terms r exact .completes x.1.id)
      (do
        if !(← Equation.read .reachable x.1.id) then return false
        else if (← Equation.read .constant (← (nodeAt x).child 0)) != some (.bool true) then
          return true
        else Subject.breaksFree (← (nodeAt x).child 1))
      fun b => exact → b = (o.part r x).flow.completes := by
  have hu : (o.kids r x)[0]? = some u := by rw [hkids]; rfl
  have hv : (o.kids r x)[1]? = some v := by rw [hkids]; rfl
  rw [completes_while hk hkids]
  refine .bind (meets_reachable_self hx fun live hlive => ?_)
  cases live with
  | false =>
    refine fun he => ?_
    rw [← hlive he]
    rfl
  | true =>
    refine .bind (meets_kid hu ?_)
    refine .bind (meets_guard hx (List.mem_of_getElem? hu) fun c hc => ?_)
    by_cases hcond : (c != some (.bool true)) = true
    · rw [if_pos hcond]
      refine fun he => ?_
      rw [← hlive he, ← hc he, hcond]
      rfl
    · rw [if_neg hcond]
      refine .bind (meets_kid hv ?_)
      refine meets_breaksFree hx (List.mem_of_getElem? hv) fun b hb he => ?_
      rw [← hlive he, ← hc he, hb he, Bool.eq_false_iff.2 hcond]
      rfl

theorem meets_completesLabeled {u : Site × Outline} {label : String} (hx : x ∈ o.table r)
    (hk : x.2.kind = .labeled label) (hkids : o.kids r x = [u]) :
    Equation.Meets (o.terms r exact .completes x.1.id)
      (do
        let body ← (nodeAt x).child 0
        if ← Equation.read .completes body then return true
        else return PackedSet.contains (← Equation.read .breaks body) (.named label))
      fun b => exact → b = (o.part r x).flow.completes := by
  have hu : (o.kids r x)[0]? = some u := by rw [hkids]; rfl
  have hum := List.mem_of_getElem? hu
  rw [completes_labeled hk hkids]
  refine .bind (meets_kid hu ?_)
  refine .bind (meets_completes_kid hx hum fun c hc => ?_)
  cases c with
  | true =>
    refine fun he => ?_
    rw [← hc he]
    rfl
  | false =>
    refine .bind (meets_read_mem (mem_table_of_mem_offspring hx hum)
      (feeds_child hx hum (by simp) (by simp)) fun labels hlabels he => ?_)
    rw [← hc he, hlabels he]
    rfl

theorem meets_completesBranches {u v w : Site × Outline} (hx : x ∈ o.table r)
    (hk : x.2.kind = .ifThen) (hkids : o.kids r x = [u, v, w]) :
    Equation.Meets (o.terms r exact .completes x.1.id)
      (do
        if ← Equation.read .completes (← (nodeAt x).child 1) then return true
        else Equation.read .completes w.1.id)
      fun b => exact → b = (o.part r x).flow.completes := by
  have hv : (o.kids r x)[1]? = some v := by rw [hkids]; rfl
  have hw : (o.kids r x)[2]? = some w := by rw [hkids]; rfl
  rw [completes_branches hk hkids]
  refine .bind (meets_kid hv ?_)
  refine .bind (meets_completes_kid hx (List.mem_of_getElem? hv) fun c hc => ?_)
  cases c with
  | true =>
    refine fun he => ?_
    rw [← hc he]
    rfl
  | false =>
    refine meets_completes_kid hx (List.mem_of_getElem? hw) fun d hd he => ?_
    rw [← hc he, hd he]
    rfl

theorem meets_completesLast (hx : x ∈ o.table r)
    (hby : ∀ parts, Flow.completesBy (Tree.ofOutline o).constantOf x.1 x.2.kind parts =
      match parts.getLast? with
      | some last => last.flow.completes
      | none => x.1.reachable) :
    Equation.Meets (o.terms r exact .completes x.1.id)
      (match (nodeAt x).children.getLast? with
        | some last => Equation.read .completes last
        | none => Equation.read .reachable x.1.id)
      fun b => exact → b = (o.part r x).flow.completes := by
  rw [completes_part, hby, children_nodeAt (Tree.ofOutline o).constantOf (o.subject r),
    List.getLast?_map, List.getLast?_map]
  cases hl : (o.kids r x).getLast? with
  | none => exact meets_reachable_self hx fun v hv => hv
  | some w => exact meets_completes_kid hx (List.mem_of_getLast? hl) fun v hv => hv

theorem meets_completes (hs : o.Shaped) (hx : x ∈ o.table r) :
    ((o.subject r).completes x.1.id).Meets (o.terms r exact .completes x.1.id)
      fun b => exact → b = (o.part r x).flow.completes := by
  have hfits := fits_of_mem o hs hx
  have hself : ∀ {parts}, (o.kids r x).map (o.part r) = parts →
      Flow.completesBy (Tree.ofOutline o).constantOf x.1 x.2.kind parts = x.1.reachable →
      (Equation.read .reachable x.1.id).Meets (o.terms r exact .completes x.1.id)
        fun b => exact → b = (o.part r x).flow.completes := by
    intro parts hparts heq
    refine meets_reachable_self hx fun v hv he => ?_
    rw [hv he, completes_part, hparts, heq]
  refine .bind (Subject.meets_node (node?_subject hx) ?_)
  rw [show (nodeAt x).kind = x.2.kind from rfl]
  cases hk : x.2.kind with
  | breakTo label | continueTo label | returns | throws type =>
    refine fun _ => ?_
    rw [completes_part, hk]
    rfl
  | block | case d | catchClause type | finallyClause =>
    exact meets_completesLast hx fun parts => by rw [hk]; rfl
  | ifThen =>
    rw [hk] at hfits
    obtain ⟨a, b, zs, hchildren, hlen⟩ := hfits
    obtain ⟨u, us, hkids, -, hus⟩ :=
      List.map_eq_cons_iff.1 ((map_snd_kids (o := o) (r := r) x).trans hchildren)
    obtain ⟨v, ws, rfl, -, hws⟩ := List.map_eq_cons_iff.1 hus
    rw [← hws, List.length_map] at hlen
    have hthird : (nodeAt x).children[2]? = ws[0]?.map fun w => w.1.id := by
      rw [children_nodeAt (Tree.ofOutline o).constantOf (o.subject r),
        show x.2.offspring _ (o.subject r) x.1 = _ from hkids, List.getElem?_map]
      rfl
    dsimp only
    rw [hthird]
    cases ws with
    | nil => exact hself (congrArg _ hkids) (by rw [hk]; rfl)
    | cons w rest =>
      obtain rfl : rest = [] := by
        simp only [List.length_cons] at hlen
        exact List.length_eq_zero_iff.1 (by omega)
      exact meets_completesBranches hx hk hkids
  | whileLoop =>
    rw [hk] at hfits
    obtain ⟨a, b, hchildren⟩ := hfits
    obtain ⟨u, v, hkids⟩ := kids_eq_pair (o := o) (r := r) hchildren
    exact meets_completesWhile hx hk hkids
  | doWhile =>
    rw [hk] at hfits
    obtain ⟨a, b, hchildren⟩ := hfits
    obtain ⟨u, v, hkids⟩ := kids_eq_pair (o := o) (r := r) hchildren
    exact meets_completesDoWhile hx hk hkids
  | labeled label =>
    rw [hk] at hfits
    obtain ⟨a, hchildren⟩ := hfits
    obtain ⟨u, hkids⟩ := kids_eq_singleton (o := o) (r := r) hchildren
    exact meets_completesLabeled hx hk hkids
  | switch =>
    rw [hk] at hfits
    obtain ⟨a, cases, hchildren⟩ := hfits
    obtain ⟨u, ws, hkids, -⟩ :=
      List.map_eq_cons_iff.1 ((map_snd_kids (o := o) (r := r) x).trans hchildren)
    exact meets_completesSwitch hx hk hkids
  | tryCatch =>
    obtain ⟨body, catches, last, hparts⟩ := exists_tryParts hs hx hk
    exact meets_completesTry hx hk hparts
  | exprStmt | constDecl name | bool value | int value | name name | unary op | binary op
  | call callee => exact hself rfl (by rw [hk]; rfl)

end Equations

end Outline

end Attribution
