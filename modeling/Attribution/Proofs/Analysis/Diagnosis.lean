import Attribution.Proofs.Analysis.Session
import Attribution.Proofs.Reference.Liveness
import Mathlib.Algebra.BigOperators.Group.Finset.Sigma
/-!
# Diagnoses

The first diagnosis reports, once each, the statements where unreachable code begins,
the jumps that lead nowhere, and the reachable nodes that break a rule. It asks for
every statement and every jump, and for the exceptions that leave the program, which
depend on what each reachable node raises; so the accounts say what has been told
(`owed_eq`). Afterwards everything that a diagnosis asks for has its final value:
another one only reads, and reports nothing.
-/

namespace Attribution

open Engine

namespace Subject

variable (s : Subject)

def Diagnoses (result : Except Error Unit) (w w' : World Attribute.schema) : Prop :=
  ∃ (n : Nat) (id : EvaluatorId) (worker : Option Nat)
    (e : Evaluator Attribute.schema (Except Error Unit)),
    Leads s.model { w with evaluators := n } (Operation.diagnose.evaluator s id worker) w' e ∧
      e.Gave result

/-- What is wrong with a node, circular constants apart. -/
def findings (live : NodeId → Bool) (id : NodeId) : Multiset Diagnostic :=
  (if s.tree.isStatement id then s.deadCode live id else 0) + s.invalidJump id +
    if live id then s.violation id else 0

end Subject

theorem Tree.mem_inspected {t : Tree} {id : NodeId} {n : Node} (hn : t.node? id = some n)
    {a : Attribute} (ha : a ∈ n.kind.inspected) {ids : List NodeId} (hid : id ∈ ids) :
    ⟨.standard a, id⟩ ∈ t.inspected ids := by
  refine List.mem_flatMap.2 ⟨id, hid, List.mem_map.2 ⟨a, ?_, rfl⟩⟩
  rw [hn]
  exact ha

namespace Scene

variable {g : Scene} {clean : Prop} {w w' : World Attribute.schema} {x : Site × Outline}
  {told : Multiset Diagnostic} {β γ : Type}

/-! ## What has been asked for -/

/-- Everything that a diagnosis asks for. -/
def inquiry (g : Scene) : List CellKey :=
  g.subject.tree.inspected g.subject.tree.preorder ++
    [⟨.standard .propagated, g.subject.tree.root⟩]

theorem Kept.not_ended {c : CellKey} (h : g.Kept w told) (hc : ¬g.Wanted c) :
    w.ended c = false := by
  cases hu : w.resolver? c with
  | none => exact World.ended_of_unset hu
  | some u => exact absurd (h.wanted c u hu) hc

theorem mem_inquiry {a : Attribute} (hx : x ∈ g.outline.table g.rules)
    (ha : a ∈ x.2.kind.inspected) : ⟨.standard a, x.1.id⟩ ∈ g.inquiry := by
  refine List.mem_append_left _ (Tree.mem_inspected (Outline.node?_subject hx) ha ?_)
  exact List.mem_range.2 (Tree.id_lt_size hx)

/-- Whoever knows what leaves the program knows what leaves each reachable node. -/
theorem Kept.ended_propagated (h : g.Kept w told)
    (hroot : w.ended ⟨.standard .propagated, g.subject.tree.root⟩ = true)
    (hx : x ∈ g.outline.table g.rules) (hlive : x.1.reachable = true) :
    w.ended ⟨.standard .propagated, x.1.id⟩ = true := by
  induction hn : x.1.id using Nat.strongRecOn generalizing x with
  | _ n ih =>
    subst hn
    rcases Outline.exists_parent hx with rfl | ⟨y, hy, i, -, hi, -, -, -⟩
    · exact hroot
    have hkid := List.mem_of_getElem? hi
    have hparent := Outline.reachable_parent hkid hlive
    have hended := ih y.1.id (Outline.lt_of_mem_offspring hkid) hy hparent rfl
    apply h.needs _ hended
    change _ ∈ g.outline.needs g.rules .propagated y.1.id
    rw [Outline.needs_propagated hy, Outline.live_of_mem hy, hparent, if_pos rfl,
      Outline.children_nodeAt (Tree.ofOutline g.outline).constantOf g.subject]
    exact List.mem_cons_of_mem _ (List.mem_map.2 ⟨x.1.id, List.mem_map.2 ⟨x, hkid, rfl⟩, rfl⟩)

theorem Kept.ended_raised (h : g.Kept w told)
    (hroot : w.ended ⟨.standard .propagated, g.subject.tree.root⟩ = true)
    (hx : x ∈ g.outline.table g.rules) : w.ended ⟨.standard .raised, x.1.id⟩ = x.1.reachable := by
  cases hlive : x.1.reachable with
  | true =>
    apply h.needs _ (h.ended_propagated hroot hx hlive)
    change _ ∈ g.outline.needs g.rules .propagated x.1.id
    rw [Outline.needs_propagated hx, Outline.live_of_mem hx, hlive]
    exact List.mem_cons_self
  | false =>
    apply h.not_ended
    change ¬g.outline.live g.rules x.1.id = true
    rw [Outline.live_of_mem hx, hlive]
    exact Bool.false_ne_true

/-! ## What has been told -/

section

variable (h : g.Kept w told) (hasked : ∀ c ∈ g.inquiry, w.ended c = true)
  (hx : x ∈ g.outline.table g.rules)

include h hasked hx

theorem ended_unreachable :
    w.ended ⟨.standard .unreachable, x.1.id⟩ = g.subject.tree.isStatement x.1.id := by
  have hnode : g.subject.tree.node? x.1.id = some (Outline.nodeAt x) := Outline.node?_subject hx
  cases hstatement : g.subject.tree.isStatement x.1.id with
  | true =>
    apply hasked _ (mem_inquiry hx (List.mem_append_right _ _))
    rw [Tree.isStatement, hnode, Option.any_some] at hstatement
    rw [show x.2.kind.isStatement = true from hstatement, if_pos rfl]
    exact List.mem_singleton_self _
  | false =>
    apply h.not_ended
    change ¬g.subject.tree.isStatement x.1.id = true
    rw [hstatement]
    exact Bool.false_ne_true

omit h in
theorem told_invalidJump :
    (if w.ended ⟨.standard .breaks, x.1.id⟩ then g.dues ⟨.standard .breaks, x.1.id⟩ else 0) +
      (if w.ended ⟨.standard .continues, x.1.id⟩ then g.dues ⟨.standard .continues, x.1.id⟩ else 0) =
    g.subject.invalidJump x.1.id := by
  have hnode : g.subject.tree.node? x.1.id = some (Outline.nodeAt x) := Outline.node?_subject hx
  have hbreaks := Outline.dues_breaks hx (g.outline.live g.rules)
  have hcontinues := Outline.dues_continues hx (g.outline.live g.rules)
  rw [show g.dues ⟨.standard .breaks, x.1.id⟩ = _ from hbreaks,
    show g.dues ⟨.standard .continues, x.1.id⟩ = _ from hcontinues]
  cases hk : x.2.kind with
  | breakTo label =>
    have hmem : .breaks ∈ x.2.kind.inspected := by
      rw [hk]
      exact List.mem_cons_self
    rw [hasked _ (mem_inquiry hx hmem), if_pos rfl, ite_self]
    exact Multiset.add_zero _
  | continueTo label =>
    have hmem : .continues ∈ x.2.kind.inspected := by
      rw [hk]
      exact List.mem_cons_self
    rw [hasked ⟨.standard .continues, _⟩ (mem_inquiry hx hmem), if_pos rfl, ite_self]
    exact Multiset.zero_add _
  | _ =>
    have hjump : g.subject.tree.jump? x.1.id = none := by
      rw [show g.subject.tree.jump? x.1.id = resolveJump x.1.scopes x.2.kind from
        Tree.jump?_of_mem hx, hk]
      rfl
    unfold Subject.invalidJump
    rw [hnode, hjump]
    simp

theorem sum_dues :
    (∑ a ∈ Attribute.all.toFinset,
      if w.ended ⟨.standard a, x.1.id⟩ then g.dues ⟨.standard a, x.1.id⟩ else 0) =
    g.subject.findings (g.outline.live g.rules) x.1.id := by
  have hroot := hasked _ (List.mem_append_right _ List.mem_cons_self)
  -- The other attributes report nothing.
  have hreachable : g.dues ⟨.standard .reachable, x.1.id⟩ = 0 := rfl
  have hcompletes : g.dues ⟨.standard .completes, x.1.id⟩ = 0 := rfl
  have hpropagated : g.dues ⟨.standard .propagated, x.1.id⟩ = 0 := rfl
  have hconstant : g.dues ⟨.standard .constant, x.1.id⟩ = 0 := rfl
  rw [List.sum_toFinset _ (by decide)]
  unfold Attribute.all Subject.findings
  rw [← told_invalidJump hasked hx, Outline.live_of_mem hx, ← h.ended_raised hroot hx,
    ← ended_unreachable h hasked hx]
  simp only [List.map_cons, List.map_nil, List.sum_cons, List.sum_nil, hreachable, hcompletes,
    hpropagated, hconstant, ite_self, zero_add, add_zero]
  change _ + (_ + (_ + _)) = _ + (_ + _) + _
  ac_rfl

end

theorem owed_eq (h : g.Kept w told) (hasked : ∀ c ∈ g.inquiry, w.ended c = true) :
    g.owed w = ∑ id ∈ Finset.range g.outline.size,
      g.subject.findings (g.outline.live g.rules) id := by
  unfold owed
  rw [Finset.sum_product_right]
  refine Finset.sum_congr rfl fun id hid => ?_
  obtain ⟨x, hx, rfl⟩ := Outline.exists_mem_table g.rules (Finset.mem_range.1 hid)
  exact sum_dues h hasked hx

/-! ## Further diagnoses -/

/-- The action comes to the result `b` and leaves everything as it is. -/
def Rests (g : Scene) (w : World Attribute.schema) (x : Eval β) (b : β) : Prop :=
  Gives g.model g.watch Analysis.home w [] x.run fun result w' frames' =>
    result = .ok b ∧ w' = w ∧ frames' = []

theorem Rests.gives_bind {x : Eval β} {b : β} {k : β → Eval γ}
    {P : Except Error γ → World Attribute.schema → List (Frame Attribute.schema) → Prop}
    (hx : g.Rests w x b) (hk : Gives g.model g.watch Analysis.home w [] (k b).run P) :
    Gives g.model g.watch Analysis.home w [] (x >>= k).run P := by
  apply Engine.gives_bind
  apply Gives.mono hx
  rintro _ _ _ ⟨rfl, rfl, rfl⟩
  exact hk

theorem rests_pure (b : β) : g.Rests w (pure b) b :=
  gives_pure ⟨rfl, rfl, rfl⟩

theorem rests_slots : g.Rests w Eval.slots w.slots :=
  gives_env (gives_pure ⟨rfl, rfl, rfl⟩)

theorem rests_occupy {c : CellKey} {u : WorkUnit CellKey} (h : g.Wired w)
    (hu : w.resolver? c = some u) : g.Rests w (g.subject.occupy c) () := by
  have hserves := h.serves c u hu
  obtain ⟨n, hn⟩ := exists_node hserves.node_lt
  unfold Subject.occupy
  rw [hn, if_neg (by simp)]
  apply rests_slots.gives_bind
  rw [hserves.slot]
  dsimp only
  rw [if_pos rfl]
  exact rests_pure ()

/-- Every cell that a diagnosis asks for holds its final value. -/
structure Settled (g : Scene) (w : World Attribute.schema) : Prop where
  inv : g.Inv False w []
  resolver : ∀ c ∈ g.inquiry, ∃ u, w.resolver? c = some u
  forced : ∀ c ∈ g.inquiry, (w.content c).isForced = true

theorem Settled.same (h : g.Settled w) (hs : World.Same w w') : g.Settled w' where
  inv := h.inv.same hs
  resolver c hc := by
    rw [(hs.edited c).resolver]
    exact h.resolver c hc
  forced c hc := by
    rw [hs.content]
    exact h.forced c hc

theorem Kept.settled (h : g.Kept w told) (hinv : g.Inv clean w [])
    (hasked : ∀ c ∈ g.inquiry, w.ended c = true) : g.Settled w where
  inv := hinv.bare
  resolver c hc := by
    cases hu : w.resolver? c with
    | none =>
      have hended := hasked c hc
      rw [World.ended_of_unset hu] at hended
      cases hended
    | some u => exact ⟨u, rfl⟩
  forced c hc := (h.forced c).2 (hasked c hc)

namespace Settled

theorem rests_read (h : g.Settled w) {a : Attribute} {id : NodeId}
    (hc : ⟨.standard a, id⟩ ∈ g.inquiry) : ∃ v, g.Rests w (g.subject.read a id) v := by
  obtain ⟨u, hu⟩ := h.resolver _ hc
  have hforced := h.forced _ hc
  cases hv : w.content ⟨.standard a, id⟩ with
  | unset | soft v =>
    rw [hv] at hforced
    cases hforced
  | forced v =>
    have hasks : g.Asks [] ⟨.standard a, id⟩ := fun _ _ hnil => by cases hnil
    have hprobe : g.Rests w (g.subject.probeCell ⟨.standard a, id⟩) (.ready v) := by
      apply (rests_occupy h.inv.wired hu).gives_bind
      show Gives g.model g.watch Analysis.home w [] (.ask (.probe ⟨.standard a, id⟩) fun r =>
        (liftExcept r : Eval (Probe a.Value)).run) _
      apply gives_probe hasks hu
      · intro v' hv'
        cases hv.symm.trans hv'
        exact gives_pure ⟨rfl, rfl, rfl⟩
      · intro hopen
        rw [show (w.cell _).value.isForced = true from h.forced _ hc] at hopen
        cases hopen
    exact ⟨v, hprobe.gives_bind (rests_pure v)⟩

theorem rests_diagnoseNode (h : g.Settled w) {id : NodeId} {n : Node}
    (hn : g.subject.tree.node? id = some n)
    (hc : ∀ a ∈ n.kind.inspected, ⟨.standard a, id⟩ ∈ g.inquiry) :
    ∃ begins, g.Rests w (g.subject.diagnoseNode id) begins := by
  have hown : g.Rests w
      (n.kind.checked?.elim (pure ()) fun a => discard (g.subject.read a id)) () := by
    cases hchecked : n.kind.checked? with
    | none => exact rests_pure ()
    | some a =>
      have ha : a ∈ n.kind.inspected := List.mem_append_left _ (by rw [hchecked]; exact .head _)
      obtain ⟨v, hv⟩ := h.rests_read (hc a ha)
      exact hv.gives_bind (rests_pure ())
  rw [Subject.diagnoseNode_eq _ hn]
  by_cases hstatement : n.kind.isStatement = true
  · have ha : .unreachable ∈ n.kind.inspected := by
      apply List.mem_append_right
      rw [if_pos hstatement]
      exact List.mem_singleton_self _
    obtain ⟨v, hv⟩ := h.rests_read (hc _ ha)
    refine ⟨v, hown.gives_bind ?_⟩
    rw [if_pos hstatement]
    exact hv
  · refine ⟨false, hown.gives_bind ?_⟩
    rw [if_neg hstatement]
    exact rests_pure false

theorem rests_diagnoseAll (h : g.Settled w) (ids : List NodeId)
    (hids : ∀ id ∈ ids, id ∈ g.subject.tree.preorder) (found : Nat) :
    ∃ count, g.Rests w (g.subject.diagnoseAll found ids) count := by
  induction ids generalizing found with
  | nil => exact ⟨found, rests_pure found⟩
  | cons id rest ih =>
    have hid := hids id List.mem_cons_self
    obtain ⟨n, hn⟩ : ∃ n, g.subject.tree.node? id = some n := by
      apply exists_node
      rw [← Tree.size_ofOutline]
      exact List.mem_range.1 hid
    obtain ⟨begins, hnode⟩ := h.rests_diagnoseNode hn fun a ha =>
      List.mem_append_left _ (Tree.mem_inspected hn ha hid)
    obtain ⟨count, hrest⟩ := ih (fun m hm => hids m (List.mem_cons_of_mem _ hm))
      (if begins then found + 1 else found)
    exact ⟨count, hnode.gives_bind hrest⟩

/-- Another diagnosis writes to the log only. -/
theorem gives_diagnose (h : g.Settled w) :
    Gives g.model g.watch Analysis.home w [] g.subject.diagnose.run fun result w' _ =>
      result = .ok () ∧ g.Settled w' ∧ w'.ledger = w.ledger := by
  refine gives_note fun origin => ?_
  have h₁ := h.same (World.same_note w origin (.diagnosing g.subject.tree.size))
  obtain ⟨count, hnodes⟩ := h₁.rests_diagnoseAll _ (fun _ hid => hid) 0
  obtain ⟨types, hroot⟩ := h₁.rests_read (List.mem_append_right _ List.mem_cons_self)
  refine hnodes.gives_bind (hroot.gives_bind (rests_slots.gives_bind ?_))
  refine gives_note fun origin' => gives_pure ⟨rfl, ?_, rfl⟩
  exact h₁.same (World.same_note _ origin' _)

theorem diagnoses (h : g.Settled w) {result : Except Error Unit}
    (hd : g.subject.Diagnoses result w w') : g.Settled w' ∧ w'.ledger = w.ledger := by
  obtain ⟨n, id, worker, e, hl, hgave⟩ := hd
  have hhired : g.Settled { w with evaluators := n } := h.same (World.same_of_eq rfl rfl rfl)
  exact (result_of_leads .diagnose hhired.gives_diagnose hl hgave).2

theorem diagnoses_again (h : g.Settled w)
    (hd : Relation.ReflTransGen (fun w w' => ∃ result, g.subject.Diagnoses result w w') w w') :
    g.Settled w' ∧ w'.ledger = w.ledger := by
  induction hd with
  | refl => exact ⟨h, rfl⟩
  | tail _ hlast ih =>
    obtain ⟨result, hlast⟩ := hlast
    obtain ⟨hsettled, hledger⟩ := ih.1.diagnoses hlast
    exact ⟨hsettled, hledger.trans ih.2⟩

end Settled

theorem kept_start (config : Config) : g.Kept (Analysis.start g.subject config).world 0 where
  buffered := rfl
  balance := by
    rw [Multiset.add_zero]
    exact (Finset.sum_eq_zero fun _ _ => rfl).symm
  wanted _ _ := nofun
  needs _ := nofun
  forced _ := by
    constructor
    · exact nofun
    · exact nofun

theorem books_start (config : Config) :
    g.Books (Analysis.start g.subject config).world [] none 0 where
  kept := kept_start config
  circles := {
    told := ⟨[], List.nodup_nil, fun _ => ⟨nofun, nofun⟩, rfl⟩
    onCycle _ := nofun
    followed _ := nofun
    tied := nofun
    single _ _ := nofun
    barred := trivial
    accused _ := nofun }

/-- The first diagnosis, by an evaluator that may have been hired for it. -/
theorem kept_of_diagnoses (hs : g.outline.Shaped) {config : Config}
    (hdepth : config.limits.maxDepth = g.depth)
    (h : g.subject.Diagnoses (.ok ()) (Analysis.start g.subject config).world w) :
    g.Inv True w [] ∧ g.Kept w 0 ∧ ∀ c ∈ g.inquiry, w.ended c = true := by
  obtain ⟨n, id, worker, e, hl, hgave⟩ := h
  have hsame : World.Same (Analysis.start g.subject config).world
      { (Analysis.start g.subject config).world with evaluators := n } :=
    World.same_of_eq rfl rfl rfl
  have hinv : g.Inv True { (Analysis.start g.subject config).world with evaluators := n } [] :=
    (inv_start config hdepth).same hsame
  obtain ⟨hinv', ho, hcovers⟩ :=
    result_of_leads .diagnose (runs_diagnose_top hs hinv) hl hgave
  rw [ho.nil] at hinv'
  obtain ⟨hbooks, hasked⟩ := hcovers trivial 0 ((books_start config).calm (World.calm_hire _ n))
  exact ⟨hinv', hbooks.kept, hasked⟩

end Scene

/-! ## Programs -/

namespace Stmt

variable {program : Stmt} {rules : RuleProvider}

theorem findings_congr {live : NodeId → Bool}
    (hlive : ∀ id < (Tree.ofProgram program).size, program.Finds rules .reachable id (live id))
    {id : NodeId} (hid : id < (Tree.ofProgram program).size) :
    (program.subject rules).findings ((program.outline 0).1.live rules) id =
      (program.subject rules).findings live id := by
  have heq : ∀ id < (program.outline 0).1.size, (program.outline 0).1.live rules id = live id := by
    intro id hid
    rw [← Tree.size_ofOutline] at hid
    exact (finds_iff hid).1 (hlive id hid)
  rw [Tree.ofProgram, Tree.size_ofOutline] at hid
  obtain ⟨x, hx, rfl⟩ := Outline.exists_mem_table rules hid
  unfold Subject.findings Subject.deadCode
  rw [heq _ hid, show (program.subject rules).tree.beginsDeadCode _ x.1.id = _ from
    Outline.beginsDeadCode_congr heq hx]
  rfl

/-- **Exact diagnostics.** If the first diagnosis ends well, it has reported exactly this,
circular constants apart: each statement where unreachable code begins, each jump that
leads nowhere, whether or not control comes to it, and each node that breaks a rule
where control does come to it. Any further diagnosis reports nothing at all. -/
theorem diagnose_reports (program : Stmt) (rules : RuleProvider) (config : Config)
    {live : NodeId → Bool}
    (hlive : ∀ id < (Tree.ofProgram program).size, program.Finds rules .reachable id (live id))
    {w : World Attribute.schema}
    (h : (program.subject rules).Diagnoses (.ok ())
      (Analysis.start (program.subject rules) config).world w) :
    w.reports = ∑ id ∈ Finset.range (Tree.ofProgram program).size,
      (program.subject rules).findings live id ∧
    ∀ w', Relation.ReflTransGen
        (fun w w' => ∃ result, (program.subject rules).Diagnoses result w w') w w' →
      w'.ledger.buffer = w.ledger.buffer := by
  obtain ⟨hinv, hkept, hasked⟩ := Scene.kept_of_diagnoses
    (g := program.scene rules config False) (program.shaped_outline 0) rfl h
  constructor
  · rw [hkept.balance, Multiset.add_zero, Scene.owed_eq hkept hasked,
      ← program.size_scene rules config False]
    exact Finset.sum_congr rfl fun id hid => findings_congr hlive (Finset.mem_range.1 hid)
  · intro w' hagain
    exact congrArg Scheduler.buffer ((hkept.settled hinv hasked).diagnoses_again hagain).2

def straying : Stmt :=
  .block [.expr (.call "f" []), .breakTo none, .expr (.call "g" []), .continueTo none]

/-- Nobody declared the functions. The second call is not reported, as control does not come
to it, but the second jump is. -/
theorem diagnose_reports_straying : ∃ w w',
    (straying.subject ({ strict := true } : Rules)).Diagnoses (.ok ())
      (Analysis.start (straying.subject ({ strict := true } : Rules)) {}).world w ∧
    w.reports = {⟨.ruleViolation, "cannot find function `f`", ⟨2, 2⟩⟩,
      ⟨.invalidJump, "break outside switch or loop", ⟨3, 1⟩⟩,
      ⟨.unreachableStatement, "unreachable statement", ⟨4, 1⟩⟩,
      ⟨.invalidJump, "continue outside of loop", ⟨5, 1⟩⟩} ∧
    (straying.subject ({ strict := true } : Rules)).Diagnoses (.ok ()) w w' ∧
    w'.ledger.buffer = w.ledger.buffer := by
  let rules : Rules := { strict := true }
  let g : Scene := straying.scene rules {} False
  have hs : g.outline.Shaped := straying.shaped_outline 0
  have hpermits : g.Permits .diagnose := nofun
  have hlive : ∀ id < (Tree.ofProgram straying).size,
      straying.Finds rules .reachable id (decide (id < 4)) := by
    intro id hid
    refine (finds_iff hid).2 ?_
    revert id
    decide
  have hinv : g.Inv True (Analysis.start g.subject {}).world [] := Scene.inv_start {} rfl
  obtain ⟨w, e, ⟨⟩, hl, hgave, hinv⟩ := Scene.exists_reply hs id (by decide) hinv hpermits 0 none
  obtain ⟨w', e', ⟨⟩, hl', hgave', -⟩ := Scene.exists_reply hs id (by decide) hinv hpermits 1 none
  have hfirst : (straying.subject rules).Diagnoses (.ok ())
      (Analysis.start (straying.subject rules) {}).world w := ⟨_, 0, none, e, hl, hgave⟩
  have hagain : (straying.subject rules).Diagnoses (.ok ()) w w' := ⟨_, 1, none, e', hl', hgave'⟩
  obtain ⟨hreports, hsilent⟩ := diagnose_reports straying rules {} hlive hfirst
  refine ⟨w, w', hfirst, hreports.trans ?_, hagain, hsilent w' (.single ⟨_, hagain⟩)⟩
  decide

end Stmt

end Attribution
