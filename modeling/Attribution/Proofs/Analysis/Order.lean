import Attribution.Proofs.Analysis.Sparing
import Attribution.Proofs.Engine.Sequence
/-!
# The order of reports

A diagnosis goes through the nodes in preorder and asks every statement whether dead code
begins there. No equation asks for that, so the statements are looked at one after the
other, and the reports of unreachable statements stand in the same order
(`deadReports_of_diagnoses`).
-/

namespace Attribution

open Engine

/-! ## Operations in sequence -/

def Subject.Performs {β : Type} (s : Subject) (id : EvaluatorId) (worker : Option Nat)
    (w : World Attribute.schema) (x : Eval β) (b : β) (w' : World Attribute.schema) : Prop :=
  ∃ e, Leads s.model w { id, home := Analysis.home, worker, focus := .act (.top x.run) } w' e ∧
    e.Gave (.ok b)

theorem Subject.Performs.grows {β : Type} {s : Subject} {id : EvaluatorId} {worker : Option Nat}
    {w w' : World Attribute.schema} {x : Eval β} {b : β} (h : s.Performs id worker w x b w')
    {m : NodeId} (hx : x.Spares (CellKey.OtherDead m)) :
    World.Grows (S := Attribute.schema) (CellKey.OtherDead m) w w' := by
  obtain ⟨e, hl, -⟩ := h
  exact hl.grows s.spares_body ⟨hx, fun _ hmem => absurd hmem List.not_mem_nil⟩

namespace Scene

variable {g : Scene} {clean : Prop} {w w' : World Attribute.schema} {β γ : Type}
  {id : EvaluatorId} {worker : Option Nat} {x : Eval β} {b : β}
  {Q : β → World Attribute.schema → List (Frame Attribute.schema) → Prop}

theorem Runs.of_performs (hx : g.Runs clean w [] x Q)
    (h : g.subject.Performs id worker w x b w') : g.Inv clean w' [] ∧ w.Ahead w' ∧ Q b w' [] := by
  obtain ⟨e, hl, hgave⟩ := h
  obtain ⟨⟨hinv, ho, hQ⟩, -⟩ := hx.of_leads ⟨rfl, rfl, rfl, rfl⟩ rfl hl hgave
  rw [ho.nil] at hinv hQ
  exact ⟨hinv, ho.ahead, hQ⟩

theorem Runs.performs_bind (hx : g.Runs clean w [] x Q) {f : β → Eval γ} {c : γ}
    (h : g.subject.Performs id worker w (x >>= f) c w') :
    ∃ b v, g.subject.Performs id worker w x b v ∧ g.Inv clean v [] ∧ Q b v [] ∧
      g.subject.Performs id worker v (f b) c w' := by
  obtain ⟨e, hl, hgave⟩ := h
  obtain ⟨v, d, result, hfirst, hd, hrest⟩ := Leads.exists_between
    (e := { id, home := Analysis.home, worker, focus := .act (.top x.run) }) hl hgave
  obtain ⟨hresult, hshape⟩ := hx.of_leads ⟨rfl, rfl, rfl, rfl⟩ rfl hfirst hd
  cases result with
  | error x =>
    -- An error is the end of both.
    have heq := hrest.eq_of_pure (x := .error x) hd.writes (.inl (by rw [hshape]; rfl)) hgave
    cases heq
  | ok b =>
    obtain ⟨hinv, ho, hQ⟩ := hresult
    rw [ho.nil] at hinv hQ hshape
    rw [hshape] at hrest
    exact ⟨b, v, ⟨d, hfirst, hd⟩, hinv, hQ, e, hrest, hgave⟩

end Scene

/-! ## Reports of dead code -/

namespace Engine.World

/-- The reports of unreachable statements, in the order in which they came. -/
def deadReports (w : World Attribute.schema) : List Diagnostic :=
  w.ledger.buffer.toList.filter fun d => d.kind = .unreachableStatement

variable {w w' : World Attribute.schema} {spared : CellKey → Prop}

theorem Grows.deadReports (h : Grows (S := Attribute.schema) spared w w') :
    w.deadReports <+: w'.deadReports :=
  (h.reports Analysis.home).filter _

end Engine.World

/-- The report of the node, if it is a statement where dead code begins. -/
def Subject.announced (s : Subject) (live : NodeId → Bool) (id : NodeId) : List Diagnostic :=
  if s.tree.isStatement id && s.tree.beginsDeadCode live id then
    ((s.tree.node? id).map fun n =>
      ⟨.unreachableStatement, "unreachable statement", n.location⟩).toList
  else []

namespace Subject

variable (s : Subject) (live : NodeId → Bool) (id : NodeId)

theorem coe_announced : (s.announced live id : Multiset Diagnostic) =
    if s.tree.isStatement id then s.deadCode live id else 0 := by
  unfold announced deadCode
  cases s.tree.isStatement id with
  | false => rfl
  | true =>
    rw [Bool.true_and, if_pos rfl]
    cases s.tree.node? id with
    | none =>
      split
      · rfl
      · rfl
    | some n =>
      dsimp only
      split
      · rfl
      · rfl

theorem eq_announced_of_perm {ds : List Diagnostic} (h : ds.Perm (s.announced live id)) :
    ds = s.announced live id := by
  revert h
  unfold announced
  split
  · cases s.tree.node? id with
    | none => exact List.perm_nil.1
    | some n => exact List.perm_singleton.1
  · exact List.perm_nil.1

theorem filter_deadCode : (s.deadCode live id).filter (fun d => d.kind = .unreachableStatement) =
    s.deadCode live id := by
  unfold deadCode
  split
  · split
    · rfl
    · rfl
  · rfl

theorem filter_invalidJump :
    (s.invalidJump id).filter (fun d => d.kind = .unreachableStatement) = 0 := by
  unfold invalidJump
  split
  · rfl
  · rfl

theorem filter_violation :
    (s.violation id).filter (fun d => d.kind = .unreachableStatement) = 0 := by
  unfold violation
  split
  · rfl
  · rfl

theorem filter_dues (a : Attribute) :
    (s.dues live a id).filter (fun d => d.kind = .unreachableStatement) =
      if a = .unreachable then s.deadCode live id else 0 := by
  cases a with
  | unreachable => exact s.filter_deadCode live id
  | breaks | continues =>
    unfold dues
    dsimp only
    split
    · exact s.filter_invalidJump id
    · rfl
  | raised => exact s.filter_violation id
  | _ => rfl

end Subject

namespace Scene

variable {g : Scene} {w w' : World Attribute.schema}

theorem filter_sum {ι : Type} (cells : Finset ι) (f : ι → Multiset Diagnostic)
    (p : Diagnostic → Prop) [DecidablePred p] :
    (∑ x ∈ cells, f x).filter p = ∑ x ∈ cells, (f x).filter p := by
  classical
  induction cells using Finset.induction_on with
  | empty => rfl
  | insert x cells hx ih =>
    rw [Finset.sum_insert hx, Finset.sum_insert hx, Multiset.filter_add, ih]

theorem Kept.deadReports (h : g.Kept w 0) : (w.deadReports : Multiset Diagnostic) =
    ∑ id ∈ Finset.range g.outline.size, if w.ended ⟨.standard .unreachable, id⟩ then
      g.subject.deadCode (g.outline.live g.rules) id else 0 := by
  have hall : .unreachable ∈ Attribute.all.toFinset :=
    List.mem_toFinset.2 Attribute.unreachable.mem_all
  have hfilter : (w.deadReports : Multiset Diagnostic) =
      w.reports.filter fun d => d.kind = .unreachableStatement := by
    unfold World.deadReports World.reports
    rw [Multiset.filter_coe, List.filter_filter]
    congr 1
    apply List.filter_congr
    intro d _
    cases d.kind with
    | _ => rfl
  rw [hfilter, h.balance, Multiset.add_zero, owed, filter_sum, Finset.sum_product_right]
  refine Finset.sum_congr rfl fun id _ => ?_
  -- The other attributes report something else.
  have hdues := fun a => (g.outline.subject g.rules).filter_dues (g.outline.live g.rules) id a
  rw [Finset.sum_eq_single_of_mem .unreachable hall]
  · rw [apply_ite (Multiset.filter _), Multiset.filter_zero]
    exact congrArg (fun ds => if w.ended ⟨.standard .unreachable, id⟩ then ds else 0)
      (hdues .unreachable)
  · intro a _ ha
    rw [apply_ite (Multiset.filter _), Multiset.filter_zero,
      show Multiset.filter _ (g.dues ⟨.standard a, id⟩) = _ from hdues a, if_neg ha, ite_self]

/-! ## From node to node -/

/-- The reports of dead code at the nodes before the given one. -/
def announcedTo (g : Scene) (k : Nat) : List Diagnostic :=
  (List.range k).flatMap (g.subject.announced (g.outline.live g.rules))

theorem announcedTo_succ (k : Nat) : g.announcedTo (k + 1) =
    g.announcedTo k ++ g.subject.announced (g.outline.live g.rules) k := by
  rw [announcedTo, List.range_succ, List.flatMap_append, List.flatMap_singleton]
  rfl

theorem coe_announcedTo (k : Nat) : (g.announcedTo k : Multiset Diagnostic) =
    ∑ id ∈ Finset.range k, (g.subject.announced (g.outline.live g.rules) id : Multiset Diagnostic) := by
  induction k with
  | zero => rfl
  | succ k ih =>
    rw [Finset.sum_range_succ, ← ih, announcedTo_succ, ← Multiset.coe_add]

/-- What has been reported when the statements before the given node have been looked at. -/
theorem Kept.perm_announcedTo (h : g.Kept w 0) {k : Nat} (hk : k ≤ g.outline.size)
    (hended : ∀ id < g.outline.size, w.ended ⟨.standard .unreachable, id⟩ =
      (decide (id < k) && g.subject.tree.isStatement id)) :
    w.deadReports.Perm (g.announcedTo k) := by
  have hrange : (Finset.range g.outline.size).filter (· < k) = Finset.range k := by
    ext id
    simp only [Finset.mem_filter, Finset.mem_range]
    omega
  apply Multiset.coe_eq_coe.1
  rw [h.deadReports, coe_announcedTo, ← hrange, Finset.sum_filter]
  refine Finset.sum_congr rfl fun id hid => ?_
  rw [hended id (Finset.mem_range.1 hid), Subject.coe_announced]
  by_cases hlt : id < k
  · rw [decide_eq_true hlt, Bool.true_and, if_pos hlt]
  · rw [decide_eq_false hlt, Bool.false_and, if_neg hlt]
    rfl

theorem Kept.ended_eq {told : Multiset Diagnostic} (h : g.Kept w told) {k : Nat}
    (hbehind : ∀ id < k, g.subject.tree.isStatement id = true →
      w.ended ⟨.standard .unreachable, id⟩ = true)
    (hbefore : ∀ id, k ≤ id → w.resolver? ⟨.standard .unreachable, id⟩ = none) (id : NodeId) :
    w.ended ⟨.standard .unreachable, id⟩ = (decide (id < k) && g.subject.tree.isStatement id) := by
  by_cases hlt : id < k
  · rw [decide_eq_true hlt, Bool.true_and]
    cases hstatement : g.subject.tree.isStatement id with
    | true => exact hbehind id hlt hstatement
    | false =>
      apply h.not_ended
      change ¬g.subject.tree.isStatement id = true
      rw [hstatement]
      exact Bool.false_ne_true
  · rw [decide_eq_false hlt, Bool.false_and]
    exact World.ended_of_unset (hbefore id (Nat.le_of_not_lt hlt))

/-- The nodes before the given one have been diagnosed, and no other. -/
structure Surveyed (g : Scene) (k : Nat) (w : World Attribute.schema) : Prop where
  inv : g.Inv True w []
  books : g.Books w [] none 0
  behind : ∀ id < k, g.subject.tree.isStatement id = true →
    w.ended ⟨.standard .unreachable, id⟩ = true
  before : ∀ id, k ≤ id → w.resolver? ⟨.standard .unreachable, id⟩ = none
  reported : w.deadReports = g.announcedTo k

variable {id : EvaluatorId} {worker : Option Nat} {k : Nat}

theorem surveyed_zero (hinv : g.Inv True w []) (hbooks : g.Books w [] none 0)
    (hbefore : ∀ id, w.resolver? ⟨.standard .unreachable, id⟩ = none) : g.Surveyed 0 w := by
  have hbehind : ∀ id < 0, g.subject.tree.isStatement id = true →
      w.ended ⟨.standard .unreachable, id⟩ = true := fun id hid => absurd hid (Nat.not_lt_zero id)
  refine ⟨hinv, hbooks, hbehind, fun id _ => hbefore id, List.perm_nil.1 ?_⟩
  exact hbooks.kept.perm_announcedTo (Nat.zero_le _) fun id _ =>
    hbooks.kept.ended_eq hbehind (fun id _ => hbefore id) id

theorem Surveyed.next (hs : g.outline.Shaped) (h : g.Surveyed k w) (hk : k < g.outline.size)
    {begins : Bool} (hp : g.subject.Performs id worker w (g.subject.diagnoseNode k) begins w') :
    g.Surveyed (k + 1) w' := by
  obtain ⟨n, hn⟩ := exists_node hk
  obtain ⟨hinv, hahead, hcovers⟩ := (runs_diagnoseNode_top hs h.inv hn).of_performs hp
  obtain ⟨hbooks, hasked⟩ := hcovers trivial 0 h.books
  have hgrows := hp.grows g.subject.spares_diagnoseNode
  have hbehind : ∀ m < k + 1, g.subject.tree.isStatement m = true →
      w'.ended ⟨.standard .unreachable, m⟩ = true := by
    intro m hm hstatement
    rcases Nat.lt_succ_iff_lt_or_eq.1 hm with hlt | rfl
    · exact hahead.ended (h.behind m hlt hstatement)
    · rw [Tree.isStatement, hn, Option.any_some] at hstatement
      apply hasked _ (List.mem_map.2 ⟨.unreachable, List.mem_append_right _ ?_, rfl⟩)
      rw [if_pos hstatement]
      exact List.mem_singleton_self _
  have hbefore : ∀ m, k + 1 ≤ m → w'.resolver? ⟨.standard .unreachable, m⟩ = none := by
    intro m hm
    exact hgrows.resolver _ ⟨rfl, Nat.ne_of_gt hm⟩ (h.before m (Nat.le_of_succ_le hm))
  refine ⟨hinv, hbooks, hbehind, hbefore, ?_⟩
  obtain ⟨more, hmore⟩ := hgrows.deadReports
  have hperm := hbooks.kept.perm_announcedTo hk fun m _ =>
    hbooks.kept.ended_eq hbehind hbefore m
  rw [announcedTo_succ, ← hmore, h.reported, List.perm_append_left_iff] at hperm
  rw [announcedTo_succ, ← hmore, h.reported, Subject.eq_announced_of_perm _ _ _ hperm]

theorem Surveyed.run (hs : g.outline.Shaped) {n : Nat} (hn : k + n ≤ g.outline.size)
    (h : g.Surveyed k w) {found count : Nat}
    (hp : g.subject.Performs id worker w (g.subject.diagnoseAll found (List.range' k n)) count w') :
    g.Surveyed (k + n) w' := by
  induction n generalizing k w found with
  | zero =>
    have hsame : g.Runs True w [] (pure found : Eval Nat) fun _ w' _ => w' = w := runs_pure h.inv rfl
    obtain ⟨-, -, rfl⟩ := hsame.of_performs hp
    exact h
  | succ n ih =>
    have hk : k < g.outline.size := by omega
    obtain ⟨node, hnode⟩ := exists_node hk
    obtain ⟨begins, v, hfirst, -, -, hrest⟩ :=
      (runs_diagnoseNode_top hs h.inv hnode).performs_bind hp
    have hlast := ih (by omega) (h.next hs hk hfirst) hrest
    rwa [show k + 1 + n = k + (n + 1) by omega] at hlast

/-- **The first diagnosis** reports dead code in the order of the program. -/
theorem deadReports_of_diagnoses (hs : g.outline.Shaped) {config : Config}
    (hdepth : config.limits.maxDepth = g.depth)
    (h : g.subject.Diagnoses (.ok ()) (Analysis.start g.subject config).world w) :
    w.deadReports = g.announcedTo g.outline.size := by
  obtain ⟨-, hkept, hasked⟩ := kept_of_diagnoses hs hdepth h
  obtain ⟨n, id, worker, e, hl, hgave⟩ := h
  let w₀ : World Attribute.schema := { (Analysis.start g.subject config).world with evaluators := n }
  have hp : g.subject.Performs id worker w₀ g.subject.diagnose () w := ⟨e, hl, hgave⟩
  have hinv : g.Inv True w₀ [] := (inv_start config hdepth).same (World.same_of_eq rfl rfl rfl)
  obtain ⟨_, w₁, hnote, hinv₁, ⟨-, hkeeps⟩, hp₁⟩ := (runs_note hinv _).performs_bind hp
  have hstart : g.Surveyed 0 w₁ := by
    apply surveyed_zero hinv₁ (hkeeps none 0 ((books_start config).calm (World.calm_hire _ n)))
    intro m
    have hgrows := hnote.grows (m := m + 1) (Eval.spares_ask fun _ _ h => h)
    exact hgrows.resolver _ ⟨rfl, Nat.ne_of_lt (Nat.lt_succ_self m)⟩ rfl
  have hpreorder : g.subject.tree.preorder = List.range' 0 g.outline.size := by
    rw [← List.range_eq_range', ← Tree.size_ofOutline]
    rfl
  obtain ⟨count, w₂, hall, -, -, hp₂⟩ := (runs_diagnoseAll_top hs g.subject.tree.preorder
    (fun m hm => by
      rw [← Tree.size_ofOutline]
      exact List.mem_range.1 hm) 0 hinv₁).performs_bind hp₁
  rw [hpreorder] at hall
  have hsurveyed := hstart.run hs (Nat.le_of_eq (Nat.zero_add _)) hall
  rw [Nat.zero_add] at hsurveyed
  -- What leaves the program is no report of dead code.
  have hgrows := hp₂.grows (m := 0) (.bind (g.subject.spares_read nofun) fun _ =>
    .bind (Eval.spares_ask fun _ _ h => h) fun _ => Eval.spares_ask fun _ _ h => h)
  have hperm := hkept.perm_announcedTo (Nat.le_refl _) fun m hm => ?_
  · rw [← hsurveyed.reported] at hperm ⊢
    exact (hgrows.deadReports.eq_of_length hperm.length_eq.symm).symm
  · obtain ⟨x, hx, rfl⟩ := Outline.exists_mem_table g.rules hm
    rw [ended_unreachable hkept hasked hx, decide_eq_true hm, Bool.true_and]

end Scene

end Attribution
