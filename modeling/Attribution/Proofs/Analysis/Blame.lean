import Attribution.Proofs.Analysis.Diagnosis
/-!
# Reports of circular constants

A session that reads constants and diagnoses the tree keeps the books of the circles
(`books_of_session`), so its reports are known: there is one for each constant whose
resolver has failed, all of those are on cycles, and whoever is known to lead into a cycle
has led to a report (`circles_reported`). How many constants of one component fail depends
on where the component is entered (`entry_decides_reports`), unless it is a ring; then it
is one of them (`one_report_per_ring`).
-/

namespace Attribution

open Engine

def Operation.AsksConstants : Operation → Prop
  | .get a _ => a = .constant
  | .diagnose => True
  | _ => False

def ConstantsOnly (op : Operation) (result : Except Error op.Reply) : Prop :=
  op.AsksConstants ∧ ∃ reply, result = .ok reply

def Engine.World.KnowsConstant (w : World Attribute.schema) (id : NodeId) : Prop :=
  (w.content ⟨.standard .constant, id⟩).isForced = true

namespace Scene

variable {g : Scene} {clean : Prop} {w w' : World Attribute.schema}
  {frames : List (Frame Attribute.schema)} {told : Multiset Diagnostic} {id : NodeId}

/-! ## Verdicts between operations -/

theorem Inv.verdict?_eq_false_iff (h : g.Inv clean w []) :
    w.verdict? id = some false ↔ w.stage ⟨.standard .constant, id⟩ = some .fail := by
  constructor
  · intro hv
    obtain ⟨status, hs, hfalse⟩ := Option.bind_eq_some_iff.1 hv
    cases status with
    | fail => exact hs
    | runningWillFail =>
      obtain ⟨f, hf, -⟩ := h.stacked.on_stack _ _ hs rfl
      cases hf
    | new | running | runningRecursive | success => cases hfalse
  · intro hs
    exact World.verdict?_of_stage (c := ⟨.standard .constant, id⟩) rfl hs

theorem Books.knowsConstant_iff (h : g.Books w frames none told) (hinv : g.Inv clean w []) :
    w.KnowsConstant id ↔ ∃ b, w.verdict? id = some b := by
  unfold World.KnowsConstant
  rw [h.kept.forced]
  constructor
  · intro hended
    obtain ⟨status, hs, ht⟩ := World.exists_of_ended hended
    have hv := World.verdict?_of_stage (c := ⟨.standard .constant, id⟩) rfl hs
    cases status with
    | success | fail => exact ⟨_, hv⟩
    | new | running | runningRecursive | runningWillFail => cases ht
  · rintro ⟨b, hv⟩
    cases b with
    | false => exact World.ended_of_stage (hinv.verdict?_eq_false_iff.1 hv)
    | true =>
      obtain ⟨status, hs, htrue⟩ := Option.bind_eq_some_iff.1 hv
      rw [World.ended_of_stage hs]
      cases status with
      | success => rfl
      | new | running | runningRecursive | runningWillFail | fail => cases htrue

/-- Whoever has a verdict and leads into a cycle has led to somebody who is to blame. The
induction follows the way into the cycle. -/
theorem Circles.exists_blame {verdict? : NodeId → Option Bool} {reports : List Diagnostic}
    {blame : Option NodeId} (h : g.Circles verdict? reports frames blame) {b : Bool}
    (hid : verdict? id = some b) (hcycle : g.tree.ReachesCycle id) :
    ∃ m, verdict? m = some false := by
  obtain ⟨m, hpath, hm⟩ := hcycle
  induction hpath using Relation.ReflTransGen.head_induction_on generalizing b with
  | refl =>
    rcases h.traced hid with ⟨k, hk, -⟩ | ⟨-, hoff⟩
    · exact ⟨k, hk⟩
    · exact absurd hm hoff
  | head hd _ ih =>
    cases b with
    | false => exact ⟨_, hid⟩
    | true =>
      rcases h.followed _ hid _ hd with ⟨k, hk, -⟩ | ⟨htrue, -⟩
      · exact ⟨k, hk⟩
      · exact ih htrue

/-! ## Sessions -/

theorem covers_of_leads (hs : g.outline.Shaped) (h : g.Inv True w []) {op : Operation}
    (hop : op.AsksConstants) (hpermits : g.Permits op) {id : EvaluatorId} {worker : Option Nat}
    {e : Evaluator Attribute.schema (Except Error op.Reply)}
    (hl : Leads g.model w (op.evaluator g.subject id worker) w' e) {reply : op.Reply}
    (hgave : e.Gave (.ok reply)) : g.Inv True w' [] ∧ ∃ cells, g.Covers w w' cells := by
  cases op with
  | get a node =>
    cases hop
    obtain ⟨hinv, ho, hread⟩ :=
      result_of_leads (.get .constant node) (runs_read_top hs h (hpermits _ rfl)) hl hgave
    rw [ho.nil] at hinv
    exact ⟨hinv, _, (hread trivial).2 trivial⟩
  | diagnose =>
    obtain ⟨hinv, ho, hcovers⟩ := result_of_leads .diagnose (runs_diagnose_top hs h) hl hgave
    rw [ho.nil] at hinv
    exact ⟨hinv, _, hcovers trivial⟩
  | create | probe | reset | attempt => cases hop

theorem books_of_session (hs : g.outline.Shaped) {config : Config}
    (hdepth : config.limits.maxDepth = g.depth) (hpermits : ∀ op, g.Permits op)
    (h : Session g.subject config ConstantsOnly w) : g.Inv True w [] ∧ g.Books w [] none 0 := by
  refine (Session.preserves (I := fun w => g.Inv True w [] ∧ g.Books w [] none 0)
    ⟨inv_start config hdepth, books_start config⟩ ?_ ?_ ?_ ?_ h).1
  · rintro w n ⟨hinv, hbooks⟩
    exact ⟨hinv.same (World.same_of_eq rfl rfl rfl), hbooks.calm (World.calm_hire w n)⟩
  · rintro w origin event ⟨hinv, hbooks⟩
    exact ⟨hinv.same (World.same_note w origin event), hbooks.calm (World.calm_note w origin event)⟩
  · rintro w w' op id worker e _ ⟨hinv, hbooks⟩ hl hgave ⟨hop, reply, rfl⟩
    obtain ⟨hinv', cells, hcovers⟩ := covers_of_leads hs hinv hop (hpermits op) hl hgave
    exact ⟨hinv', (hcovers 0 hbooks).1⟩
  · intro c hc
    exact (hc (.ready c.family.fallback)).1.elim

end Scene

/-! ## Programs -/

/-- Who is to blame for circles, in the order of the reports. The culprits are those whose
resolvers have failed; each component with a cycle has one as soon as the constant of one
of its nodes is known, and no ring has two. -/
structure Tree.Culprits (t : Tree) (w : World Attribute.schema) (culprits : List NodeId) :
    Prop where
  nodup : culprits.Nodup
  failed : ∀ id, id ∈ culprits ↔ w.stage ⟨.standard .constant, id⟩ = some .fail
  reported : List.Forall₂ t.Accuses w.circles culprits
  covers : ∀ id, t.OnCycle id → w.KnowsConstant id → ∃ m ∈ culprits, t.Entangled id m
  single : ∀ id ∈ culprits, ∀ m ∈ culprits, t.Entangled id m → t.Ring id → m = id

theorem Scene.Books.exists_culprits {g : Scene} {w : World Attribute.schema} {clean : Prop}
    {told : Multiset Diagnostic} (h : g.Books w [] none told) (hinv : g.Inv clean w []) :
    ∃ culprits, g.tree.Culprits w culprits := by
  obtain ⟨culprits, hnodup, hmem, hcircles⟩ := h.circles.told
  refine ⟨culprits, hnodup, fun id => (hmem id).trans hinv.verdict?_eq_false_iff, ?_, ?_, ?_⟩
  · rw [hcircles, List.forall₂_map_left_iff, List.forall₂_same]
    intro id hid
    exact g.outline.accuses_circle g.rules (h.circles.onCycle id ((hmem id).1 hid))
  · intro id hcycle hknown
    obtain ⟨b, hv⟩ := (h.knowsConstant_iff hinv).1 hknown
    rcases h.circles.traced hv with ⟨m, hm, hent⟩ | ⟨-, hoff⟩
    · exact ⟨m, (hmem m).2 hm, hent⟩
    · exact absurd hcycle hoff
  · intro id hid m hm
    exact h.circles.single id m ((hmem id).1 hid) ((hmem m).1 hm)

namespace Subject

/-- The world after the constants of some nodes have been read one after the other, if
none of the reads has failed. -/
def readConstants? (s : Subject) :
    List NodeId → World Attribute.schema → Option (World Attribute.schema)
  | [], w => some w
  | id :: rest, w =>
    let (w', e) := ((Operation.get .constant id).evaluator s w.evaluators none).run s.model
      Analysis.patience { w with evaluators := w.evaluators + 1 }
    match e.result?, e.writes with
    | some (.ok _), [] => s.readConstants? rest w'
    | _, _ => none

theorem session_readConstants? {s : Subject} {config : Config} {ids : List NodeId}
    {w w' : World Attribute.schema} (h : Session s config ConstantsOnly w)
    (hread : s.readConstants? ids w = some w') : Session s config ConstantsOnly w' := by
  induction ids generalizing w with
  | nil =>
    cases hread
    exact h
  | cons id rest ih =>
    rw [readConstants?] at hread
    dsimp only at hread
    split at hread
    · rename_i v hresult hwrites
      apply ih _ hread
      refine h.hire.operate (.get .constant id) _ _ (Evaluator.leads_run s.model _ _ _) ?_
        ⟨rfl, v, rfl⟩
      refine ⟨?_, hwrites⟩
      unfold Evaluator.result? at hresult
      split at hresult
      · rename_i hfocus
        cases hresult
        exact hfocus
      · cases hresult
    · cases hread

end Subject

namespace Stmt

theorem books_scene {program : Stmt} {rules : RuleProvider} {config : Config}
    {w : World Attribute.schema} (h : Session (program.subject rules) config ConstantsOnly w) :
    (program.scene rules config True).Inv True w [] ∧
      (program.scene rules config True).Books w [] none 0 :=
  Scene.books_of_session (program.shaped_outline 0) rfl (fun _ _ _ hl => absurd trivial hl) h

theorem exists_session_knowing (program : Stmt) (rules : RuleProvider) (config : Config)
    (hroom : 8 * (Tree.ofProgram program).size ≤ config.limits.maxDepth) (ids : List NodeId)
    (hids : ∀ id ∈ ids, id < (Tree.ofProgram program).size) :
    ∃ w, Session (program.subject rules) config ConstantsOnly w ∧
      (program.scene rules config False).Inv True w [] ∧ ∀ id ∈ ids, w.KnowsConstant id := by
  induction ids with
  | nil => exact ⟨_, .start, Scene.inv_start config rfl, nofun⟩
  | cons id rest ih =>
    obtain ⟨w, hsession, htight, hrest⟩ := ih fun m hm => hids m (List.mem_cons_of_mem _ hm)
    have hid := hids id List.mem_cons_self
    rw [program.size_scene rules config False] at hroom hid
    obtain ⟨w', e, v, hl, hgave, htight'⟩ := Scene.exists_get (program.shaped_outline 0) not_false
      hroom htight .constant hid 0 none
    have hsession' : Session (program.subject rules) config ConstantsOnly w' :=
      hsession.operate _ 0 none hl hgave ⟨rfl, v, rfl⟩
    refine ⟨w', hsession', htight', ?_⟩
    obtain ⟨hinv, hbooks⟩ := books_scene hsession
    obtain ⟨-, ho, hread⟩ := Scene.result_of_leads (g := program.scene rules config True)
      (.get .constant id) (Scene.runs_read_top (program.shaped_outline 0) hinv
        fun hl => absurd trivial hl) hl hgave
    obtain ⟨hbooks', hended⟩ := (hread trivial).2 trivial 0 hbooks
    intro m hm
    apply (hbooks'.kept.forced _).2
    rcases List.mem_cons.1 hm with rfl | hm
    · exact hended _ List.mem_cons_self
    · exact ho.ahead.ended ((hbooks.kept.forced _).1 (hrest m hm))

/-- **Circular constants are reported.** In a session of reads of constants and diagnoses
there is a report if and only if the constant of a node is known that leads into a cycle.
Every report is about a node of its own, which is on a cycle and whose resolver has failed;
each component with a cycle has such a node as soon as the constant of one of its nodes is
known. Whatever leads into a cycle has no value. -/
theorem circles_reported (program : Stmt) (rules : RuleProvider) (config : Config)
    {w : World Attribute.schema}
    (h : Session (program.subject rules) config ConstantsOnly w) :
    (w.circles ≠ [] ↔ ∃ id, w.KnowsConstant id ∧ (Tree.ofProgram program).ReachesCycle id) ∧
    (∃ culprits, (Tree.ofProgram program).Culprits w culprits) ∧
    ∀ id, (Tree.ofProgram program).ReachesCycle id → program.Finds rules .constant id none ∧
      ∀ v, w.content ⟨.standard .constant, id⟩ = .forced v → v = none := by
  obtain ⟨hinv, hbooks⟩ := books_scene h
  obtain ⟨culprits, hculprits⟩ := hbooks.exists_culprits hinv
  have hlength := hculprits.reported.length_eq
  refine ⟨?_, ⟨culprits, hculprits⟩, ?_⟩
  · rw [← List.length_pos_iff, hlength, List.length_pos_iff_exists_mem]
    constructor
    · rintro ⟨id, hid⟩
      have hverdict := hinv.verdict?_eq_false_iff.2 ((hculprits.failed id).1 hid)
      exact ⟨id, (hbooks.knowsConstant_iff hinv).2 ⟨_, hverdict⟩, id, .refl,
        hbooks.circles.onCycle id hverdict⟩
    · rintro ⟨id, hknown, hcycle⟩
      obtain ⟨b, hverdict⟩ := (hbooks.knowsConstant_iff hinv).1 hknown
      obtain ⟨m, hm⟩ := hbooks.circles.exists_blame hverdict hcycle
      exact ⟨m, (hculprits.failed m).2 (hinv.verdict?_eq_false_iff.1 hm)⟩
  · intro id hcycle
    have hvalue : (program.outline 0).1.reference rules .constant id = none := by
      rw [Outline.reference_constant]
      exact Tree.constantOf_of_reachesCycle hcycle
    obtain ⟨dep, hdep, -⟩ := hcycle.exists_depends
    refine ⟨(finds_iff hdep.lt_size).2 hvalue, fun v hv => ?_⟩
    exact (hinv.valued.exact trivial _ v (by rw [hv]; rfl)).trans hvalue

def twiceItself : Stmt :=
  .const "a" (.binary .add (.name "a") (.name "a"))

/-- The sum leads back to the declaration on two ways. -/
theorem circles_reported_twiceItself : ∃ w culprits,
    Session (twiceItself.subject ({} : Rules)) {} ConstantsOnly w ∧ w.circles ≠ [] ∧
    (Tree.ofProgram twiceItself).Culprits w culprits ∧
    twiceItself.Finds ({} : Rules) .constant 0 none := by
  obtain ⟨w, hsession, -, hknown⟩ := exists_session_knowing twiceItself ({} : Rules) {} (by decide)
    [0] (by decide)
  obtain ⟨hreport, ⟨culprits, hculprits⟩, hnone⟩ := circles_reported twiceItself _ {} hsession
  have hcycle : (Tree.ofProgram twiceItself).ReachesCycle 0 :=
    ⟨0, .refl, .tail (.tail (.single (by decide : 1 ∈ (Tree.ofProgram twiceItself).operands 0))
      (by decide : 2 ∈ (Tree.ofProgram twiceItself).operands 1))
      (by decide : 0 ∈ (Tree.ofProgram twiceItself).operands 2)⟩
  exact ⟨w, culprits, hsession, hreport.2 ⟨0, hknown 0 List.mem_cons_self, hcycle⟩, hculprits,
    (hnone 0 hcycle).1⟩

/-- **How many reports there are.** Once all constants are known, whatever the order in
which they were read, there is a report in each component with a cycle, and in a ring there
is exactly one. So if all components with cycles are rings, there are as many reports as
such components. -/
theorem one_report_per_ring (program : Stmt) (rules : RuleProvider) (config : Config)
    {w : World Attribute.schema}
    (h : Session (program.subject rules) config ConstantsOnly w)
    (hknown : ∀ id < (Tree.ofProgram program).size, w.KnowsConstant id) :
    (∃ culprits, culprits.Nodup ∧ List.Forall₂ (Tree.ofProgram program).Accuses w.circles culprits ∧
      ∀ id, (Tree.ofProgram program).OnCycle id →
        (∃ m ∈ culprits, (Tree.ofProgram program).Entangled id m) ∧
        ((Tree.ofProgram program).Ring id →
          ∃! m, m ∈ culprits ∧ (Tree.ofProgram program).Entangled id m)) ∧
    (Tree.ofProgram program).cyclicComponents.ncard ≤ w.circles.length ∧
    ((∀ id, (Tree.ofProgram program).OnCycle id → (Tree.ofProgram program).Ring id) →
      w.circles.length = (Tree.ofProgram program).cyclicComponents.ncard) := by
  obtain ⟨hinv, hbooks⟩ := books_scene h
  obtain ⟨culprits, hculprits⟩ := hbooks.exists_culprits hinv
  have hlength := hculprits.reported.length_eq
  have hcover : ∀ id, (Tree.ofProgram program).OnCycle id →
      ∃ m ∈ culprits, (Tree.ofProgram program).Entangled id m := by
    intro id hcycle
    obtain ⟨dep, hdep, -⟩ := hcycle.exists_depends
    exact hculprits.covers id hcycle (hknown id hdep.lt_size)
  have hon : ∀ m ∈ culprits, (Tree.ofProgram program).OnCycle m := fun m hm =>
    hbooks.circles.onCycle m (hinv.verdict?_eq_false_iff.2 ((hculprits.failed m).1 hm))
  refine ⟨⟨culprits, hculprits.nodup, hculprits.reported, fun id hcycle => ⟨hcover id hcycle, ?_⟩⟩,
    ?_, ?_⟩
  · intro hring
    obtain ⟨m, hm, hent⟩ := hcover id hcycle
    refine ⟨m, ⟨hm, hent⟩, ?_⟩
    rintro k ⟨hk, hent'⟩
    exact hculprits.single m hm k hk (hent.symm.trans hent') (hring.of_entangled hent)
  · rw [hlength]
    exact Tree.ncard_cyclicComponents_le hcover
  · intro hring
    rw [hlength]
    exact (Tree.ncard_cyclicComponents_eq hcover hculprits.nodup hon fun m hm k hk hent =>
      hculprits.single m hm k hk hent (hring m (hon m hm))).symm

def eachOther : Stmt :=
  .block [.const "a" (.name "b"), .const "b" (.name "a")]

/-- The only component with a cycle is that of the first declaration. -/
theorem ncard_cyclicComponents_eachOther :
    (Tree.ofProgram eachOther).cyclicComponents.ncard = 1 := by
  have hstep : ∀ {a b}, b ∈ (Tree.ofProgram eachOther).operands a →
      Relation.ReflTransGen (Tree.ofProgram eachOther).Depends a b := fun h => .single h
  have h₁ := hstep (by decide : 2 ∈ (Tree.ofProgram eachOther).operands 1)
  have h₂ := hstep (by decide : 3 ∈ (Tree.ofProgram eachOther).operands 2)
  have h₃ := hstep (by decide : 4 ∈ (Tree.ofProgram eachOther).operands 3)
  have h₄ := hstep (by decide : 1 ∈ (Tree.ofProgram eachOther).operands 4)
  have hring : ∀ id ∈ [1, 2, 3, 4], (Tree.ofProgram eachOther).Entangled id 1 := by
    simp only [List.forall_mem_cons]
    exact ⟨.refl 1, ⟨h₂.trans (h₃.trans h₄), h₁⟩, ⟨h₃.trans h₄, h₁.trans h₂⟩,
      ⟨h₄, h₁.trans (h₂.trans h₃)⟩, List.forall_mem_nil _⟩
  have hnodes : ∀ id < (Tree.ofProgram eachOther).size, id ∉ [1, 2, 3, 4] →
      (Tree.ofProgram eachOther).operands id = [] := by
    decide
  have hcover : ∀ id, (Tree.ofProgram eachOther).OnCycle id →
      ∃ m ∈ [1], (Tree.ofProgram eachOther).Entangled id m := by
    intro id hcycle
    obtain ⟨dep, hd, -⟩ := hcycle.exists_depends
    refine ⟨1, List.mem_singleton_self 1, hring id ?_⟩
    by_contra hid
    have hnone := hnodes id hd.lt_size hid
    rw [Tree.Depends, hnone] at hd
    cases hd
  have hcycle : (Tree.ofProgram eachOther).OnCycle 1 :=
    .head' (by decide : 2 ∈ (Tree.ofProgram eachOther).operands 1) (h₂.trans (h₃.trans h₄))
  refine Tree.ncard_cyclicComponents_eq hcover (List.nodup_singleton 1) ?_ ?_
  · exact List.forall_mem_singleton.2 hcycle
  · simp

/-- Whichever of the two is read first, there is one report. -/
theorem one_report_per_ring_eachOther : ∃ w,
    Session (eachOther.subject ({} : Rules)) {} ConstantsOnly w ∧
    (∀ id < (Tree.ofProgram eachOther).size, w.KnowsConstant id) ∧ w.circles.length = 1 := by
  obtain ⟨w, hsession, -, hread⟩ := exists_session_knowing eachOther ({} : Rules) {} (by decide)
    (List.range (Tree.ofProgram eachOther).size) fun id hid => List.mem_range.1 hid
  have hknown : ∀ id < (Tree.ofProgram eachOther).size, w.KnowsConstant id :=
    fun id hid => hread id (List.mem_range.2 hid)
  have hring := (one_report_per_ring eachOther _ {} hsession hknown).2.2 fun id _ =>
    Tree.Ring.of_operands (by decide) id
  exact ⟨w, hsession, hknown, hring.trans ncard_cyclicComponents_eachOther⟩

/-- Where a component is no ring, the number of reports depends on where it is entered: at
the declaration, or at the sum. -/
theorem entry_decides_reports : ∃ w w',
    Session (twiceItself.subject ({} : Rules)) {} ConstantsOnly w ∧
    Session (twiceItself.subject ({} : Rules)) {} ConstantsOnly w' ∧
    (∀ id < (Tree.ofProgram twiceItself).size, w.KnowsConstant id ∧ w'.KnowsConstant id) ∧
    w.circles.length = 2 ∧ w'.circles.length = 1 := by
  let world := (Analysis.start (twiceItself.subject ({} : Rules)) {}).world
  have hread : ∀ x ∈ [([0, 1, 2, 3], 2), ([1, 0, 2, 3], 1)],
      ((twiceItself.subject ({} : Rules)).readConstants? x.1 world).any (fun w =>
        w.circles.length = x.2 ∧ ∀ id < (Tree.ofProgram twiceItself).size,
          (w.content ⟨.standard .constant, id⟩).isForced = true) = true := by
    decide +kernel
  obtain ⟨w, hw, hresult⟩ := (Option.any_eq_true _ _).1 (hread _ List.mem_cons_self)
  obtain ⟨w', hw', hresult'⟩ := (Option.any_eq_true _ _).1 (hread _ (.tail _ List.mem_cons_self))
  obtain ⟨hlength, hknown⟩ := of_decide_eq_true hresult
  obtain ⟨hlength', hknown'⟩ := of_decide_eq_true hresult'
  exact ⟨w, w', Subject.session_readConstants? .start hw, Subject.session_readConstants? .start hw',
    fun id hid => ⟨hknown id hid, hknown' id hid⟩, hlength, hlength'⟩

end Stmt

end Attribution
