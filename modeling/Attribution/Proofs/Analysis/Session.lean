import Attribution.Proofs.Analysis.Operation
import Attribution.Proofs.Engine.Solo
/-!
# Sessions

An analysis is asked for one thing after the other. Whatever has been asked for
before, an operation on the attributes of the tree comes to an end, and the only
error is that the stack is too deep. As long as no operation has ended with an
error, every value that is read is the one that the outline determines.
-/

namespace Attribution

open Engine

def Subject.job (s : Subject) (c : CellKey) : Job Attribute.schema :=
  ⟨c.label, c.family.phase, (do discard <| s.probeCell c : Eval Unit).run⟩

/-- The worlds that an analysis comes to. Each operation is carried out by an
evaluator with an empty stack, whatever is picked at barriers; a pool has one
worker. `allowed` says what may be asked for, and with which results. -/
inductive Session (s : Subject) (config : Config)
    (allowed : (op : Operation) → Except Error op.Reply → Prop) :
    World Attribute.schema → Prop where
  | start : Session s config allowed (Analysis.start s config).world
  | hire {w : World Attribute.schema} (h : Session s config allowed w) :
    Session s config allowed { w with evaluators := w.evaluators + 1 }
  | operate {w w' : World Attribute.schema} (h : Session s config allowed w) (op : Operation)
    (id : EvaluatorId) (worker : Option Nat)
    {e : Evaluator Attribute.schema (Except Error op.Reply)}
    (hl : Leads s.model w (op.evaluator s id worker) w' e) {result : Except Error op.Reply}
    (hgave : e.Gave result) (hallowed : allowed op result) : Session s config allowed w'
  | pool {w : World Attribute.schema} (h : Session s config allowed w) (cells : List CellKey)
    {p : Pool Attribute.schema} (hm : Relation.ReflTransGen (Pool.Moves s.model)
      (Pool.assemble w Analysis.home 1 (cells.map s.job)) p) {completed : List Nat}
    (hfinished : p.result = .finished completed)
    (hallowed : ∀ c ∈ cells, ∀ reply, allowed (.probe c) (.ok reply)) :
    Session s config allowed p.dismissed

/-- What an analysis does to carry out an operation is a run of a new evaluator. -/
theorem Analysis.leads_perform (an : Analysis) (op : Operation) :
    ∃ e, Leads an.subject.model { an.world with evaluators := an.world.evaluators + 1 }
        (op.evaluator an.subject an.world.evaluators none)
        (an.perform (op.action an.subject)).1.world e ∧
      (an.perform (op.action an.subject)).2 = e.result? :=
  ⟨_, Evaluator.leads_run an.subject.model patience _ _, rfl⟩

theorem Session.runPool {an : Analysis}
    {allowed : (op : Operation) → Except Error op.Reply → Prop}
    (h : Session an.subject an.config allowed an.world) (cells : List CellKey)
    {completed : List Nat} (hfinished : (an.runPool (some 1) cells).2 = .finished completed)
    (hallowed : ∀ c ∈ cells, ∀ reply, allowed (.probe c) (.ok reply)) :
    Session an.subject an.config allowed (an.runPool (some 1) cells).1.world :=
  h.pool cells (Pool.moves_run an.subject.model Analysis.patience 0 _) hfinished hallowed

theorem Session.preserves {s : Subject} {config : Config}
    {allowed : (op : Operation) → Except Error op.Reply → Prop} {I : World Attribute.schema → Prop}
    (hstart : I (Analysis.start s config).world) (hhire : ∀ w n, I w → I { w with evaluators := n })
    (hnote : ∀ w origin event, I w → I (w.note origin event))
    (hoperate : ∀ (w w' : World Attribute.schema) (op : Operation) (id : EvaluatorId)
      (worker : Option Nat) (e : Evaluator Attribute.schema (Except Error op.Reply)) result, I w →
      Leads s.model w (op.evaluator s id worker) w' e → e.Gave result → allowed op result → I w')
    (hjob : ∀ c, (∀ reply, allowed (.probe c) (.ok reply)) →
      Pool.Keeps s.model Analysis.home I (s.job c))
    {w : World Attribute.schema} (h : Session s config allowed w) :
    I w ∧ w.elsewhere = fun _ => false := by
  induction h with
  | start => exact ⟨hstart, rfl⟩
  | hire _ ih => exact ⟨hhire _ _ ih.1, ih.2⟩
  | operate _ op id worker hl hgave hop ih =>
    exact ⟨hoperate _ _ op id worker _ _ ih.1 hl hgave hop, hl.elsewhere_eq.trans ih.2⟩
  | pool _ cells hm hfinished hcells ih =>
    have hjobs : ∀ job ∈ cells.map s.job, Pool.Keeps s.model Analysis.home I job := by
      intro job hmem
      obtain ⟨c, hc, rfl⟩ := List.mem_map.1 hmem
      exact hjob c (hcells c hc)
    obtain ⟨worker, hsolo⟩ := Pool.solo_of_moves ih.2 hjobs (hhire _ _ (hnote _ _ _ ih.1)) hm
    have hI := hsolo.finished hfinished
    have helsewhere := hsolo.elsewhere
    unfold Pool.dismissed
    split
    · exact ⟨hnote _ _ _ hI, helsewhere⟩
    · exact ⟨hI, helsewhere⟩

namespace Scene

variable {g : Scene} {clean : Prop} {w w' : World Attribute.schema} {op : Operation}

def Ended (g : Scene) (clean : Prop) (op : Operation) (w : World Attribute.schema)
    (e : Evaluator Attribute.schema (Except Error op.Reply)) : Prop :=
  ∃ result, e.Gave result ∧ g.Concludes clean (g.Replies op) result w []

theorem Ended.step_eq_none {e : Evaluator Attribute.schema (Except Error op.Reply)}
    (h : g.Ended clean op w e) (pick : Nat) : e.step g.model pick w = none := by
  obtain ⟨result, hgave, -⟩ := h
  exact hgave.step_eq_none g.model pick w

theorem watched_operation (hs : g.outline.Shaped) (h : g.Inv clean w []) (hop : g.Permits op)
    (id : EvaluatorId) (worker : Option Nat) :
    Watched g.model g.watch (g.Ended clean op) w (op.evaluator g.subject id worker) := by
  apply ((gives_operation hs h hop).watched (e := op.evaluator g.subject id worker) rfl rfl rfl
    rfl).mono
  rintro w' e' ⟨result, hresult, he'⟩
  have hnil : e'.frames = [] := by
    cases result with
    | ok reply => exact hresult.1
    | error x => exact hresult.1
  rw [hnil] at hresult
  exact ⟨result, by rw [he']; exact ⟨rfl, rfl⟩, hresult⟩

theorem ends_operation (hs : g.outline.Shaped) (h : g.Inv clean w []) (hop : g.Permits op)
    (id : EvaluatorId) (worker : Option Nat) :
    Ends g.model (g.Ended clean op) w (op.evaluator g.subject id worker) :=
  (watched_operation hs h hop id worker).ends

/-- The end of a given run of an operation, of which something is known in general. -/
theorem result_of_leads (op : Operation)
    {P : Except Error op.Reply → World Attribute.schema → List (Frame Attribute.schema) → Prop}
    (h : Gives g.model g.watch Analysis.home w [] (op.action g.subject).run P)
    {id : EvaluatorId} {worker : Option Nat}
    {e : Evaluator Attribute.schema (Except Error op.Reply)}
    (hl : Leads g.model w (op.evaluator g.subject id worker) w' e) {result : Except Error op.Reply}
    (hgave : e.Gave result) : P result w' e.frames := by
  have hends : Ends g.model (fun w e => ∃ x, e.Gave x ∧ P x w e.frames) w
      (op.evaluator g.subject id worker) := by
    apply (h.watched (e := op.evaluator g.subject id worker) rfl rfl rfl rfl).ends.mono
    rintro w' e' ⟨x, hx, he'⟩
    exact ⟨x, by rw [he']; exact ⟨rfl, rfl⟩, hx⟩
  obtain ⟨result', hgave', hresult⟩ := (hends.of_leads
    (fun w _ ⟨_, hend, _⟩ pick => hend.step_eq_none _ pick w) hl).result
    (hgave.step_eq_none g.model 0 w')
  have heq := hgave'.focus.symm.trans hgave.focus
  cases heq
  exact hresult

theorem concludes_of_leads (hs : g.outline.Shaped) (h : g.Inv clean w []) (hop : g.Permits op)
    {id : EvaluatorId} {worker : Option Nat}
    {e : Evaluator Attribute.schema (Except Error op.Reply)}
    (hl : Leads g.model w (op.evaluator g.subject id worker) w' e) {result : Except Error op.Reply}
    (hgave : e.Gave result) : g.Concludes clean (g.Replies op) result w' [] := by
  have hresult := result_of_leads op (gives_operation hs h hop) hl hgave
  cases result with
  | ok reply => exact ⟨rfl, hresult.2⟩
  | error x => exact ⟨rfl, hresult.2⟩

theorem keeps_job (hs : g.outline.Shaped) {c : CellKey} (hc : g.Admits c) :
    Pool.Keeps g.model Analysis.home (fun w => g.Inv clean w []) (g.subject.job c) := by
  intro w e h hidle
  have hjob : Gives g.model g.watch Analysis.home w [] (g.subject.job c).action
      (g.Concludes clean fun _ => True) :=
    Runs.concludes (runs_map (R := fun _ _ _ => True)
      ((runs_probeCell_top hs h hc).mono fun _ _ _ _ _ => trivial)) fun _ _ _ _ _ => trivial
  apply (hjob.watched (e := e.resume (.top (g.subject.job c).action)) hidle.home hidle.frames
    hidle.writes rfl).ends.mono
  rintro w' e' ⟨result, hresult, he'⟩
  have hnil : e'.frames = [] := by
    cases result with
    | ok reply => exact hresult.1
    | error x => exact hresult.1
  rw [he']
  refine ⟨result, ⟨rfl, rfl⟩, ⟨hidle.home, hnil, hidle.levels, rfl⟩, ?_⟩
  rintro rfl
  exact hresult.2.1

theorem inv_of_session (clean : Prop) (hs : g.outline.Shaped) {config : Config}
    (hdepth : config.limits.maxDepth = g.depth)
    {allowed : (op : Operation) → Except Error op.Reply → Prop}
    (hallowed : ∀ op result, allowed op result →
      g.Permits op ∧ (clean → ∃ reply, result = .ok reply))
    (h : Session g.subject config allowed w) :
    g.Inv clean w [] ∧ w.elsewhere = fun _ => false := by
  apply Session.preserves (I := fun w => g.Inv clean w []) (inv_start config hdepth) _ _ _ _ h
  · intro w n hinv
    exact hinv.same (World.same_of_eq rfl rfl rfl)
  · intro w origin event hinv
    exact hinv.same (World.same_note w origin event)
  · intro w w' op id worker e result hinv hl hgave hop
    obtain ⟨hpermits, hok⟩ := hallowed op result hop
    have hend := concludes_of_leads hs hinv hpermits hl hgave
    cases result with
    | ok reply => exact hend.2.1
    | error x =>
      apply hend.2.1.mono
      intro _ hclean
      obtain ⟨reply, hreply⟩ := hok hclean
      cases hreply
  · intro c hc
    exact keeps_job hs ((hallowed _ _ (hc (.ready c.family.fallback))).1 c rfl)

/-- The only error is that the stack is too deep, and with room for one unit per slot
there is none. -/
theorem Concludes.tight {β : Type} {Q : β → Prop} {result : Except Error β}
    {frames : List (Frame Attribute.schema)} (h : g.Concludes clean Q result w frames)
    (hloose : ¬g.loose) :
    (∀ x, result = .error x → ∃ label, x = .depthExceeded label g.depth) ∧
      (8 * g.outline.size ≤ g.depth → ∃ reply, result = .ok reply) := by
  cases result with
  | ok reply => exact ⟨nofun, fun _ => ⟨reply, rfl⟩⟩
  | error x =>
    obtain ⟨label, rfl, hlt⟩ := h.2.2.resolve_left hloose
    constructor
    · rintro y ⟨⟩
      exact ⟨label, rfl⟩
    · intro hle
      exact absurd hlt (Nat.not_lt_of_le hle)

theorem exists_reply (hs : g.outline.Shaped) (hloose : ¬g.loose)
    (hdepth : 8 * g.outline.size ≤ g.depth) (h : g.Inv True w []) (hop : g.Permits op)
    (id : EvaluatorId) (worker : Option Nat) :
    ∃ w' e reply, Leads g.model w (op.evaluator g.subject id worker) w' e ∧
      e.Gave (.ok reply) ∧ g.Inv True w' [] := by
  obtain ⟨w', e, hl, result, hgave, hresult⟩ := (ends_operation hs h hop id worker).exists_leads
  obtain ⟨reply, rfl⟩ := (hresult.tight hloose).2 hdepth
  exact ⟨w', e, reply, hl, hgave, hresult.2.1⟩

theorem exists_get (hs : g.outline.Shaped) (hloose : ¬g.loose)
    (hdepth : 8 * g.outline.size ≤ g.depth) (h : g.Inv True w []) (a : Attribute) {node : Nat}
    (hnode : node < g.outline.size) (id : EvaluatorId) (worker : Option Nat) :
    ∃ w' e v, Leads g.model w ((Operation.get a node).evaluator g.subject id worker) w' e ∧
      e.Gave (.ok v) ∧ g.Inv True w' [] := by
  refine exists_reply hs hloose hdepth h ?_ id worker
  rintro c ⟨⟩ -
  exact ⟨rfl, hnode⟩

end Scene

/-! ## Programs -/

def Stmt.subject (program : Stmt) (rules : RuleProvider) : Subject :=
  ⟨.ofProgram program, rules⟩

def Stmt.scene (program : Stmt) (rules : RuleProvider) (config : Config) (loose : Prop) : Scene :=
  ⟨(program.outline 0).1, rules, config.limits.maxDepth, loose⟩

theorem Stmt.size_scene (program : Stmt) (rules : RuleProvider) (config : Config) (loose : Prop) :
    (Tree.ofProgram program).size = (program.scene rules config loose).outline.size :=
  Tree.size_ofOutline _

theorem Stmt.permits_of_within {program : Stmt} {rules : RuleProvider} {config : Config} {loose : Prop}
    {op : Operation} (h : op.Within (.ofProgram program)) :
    (program.scene rules config loose).Permits op := by
  intro c hc _
  rw [← program.size_scene rules config loose]
  exact h c hc

/-- The analysis finds the value: whatever has been asked for before without an error,
a read of the attribute comes to an end and gives no other value, and it gives this
one if there is room on the stack for one unit per slot. -/
def Stmt.Finds (program : Stmt) (rules : RuleProvider) (a : Attribute) (id : NodeId) (v : a.Value) :
    Prop :=
  ∀ (config : Config) (w : World Attribute.schema),
    Session (program.subject rules) config
      (fun op result => op.Within (.ofProgram program) ∧ ∃ reply, result = .ok reply) w →
    ∀ (evaluator : EvaluatorId) (worker : Option Nat),
      Ends (program.subject rules).model (fun _ e => ∃ result, e.Gave result ∧
          (∀ found, result = .ok found → found = v) ∧
          (8 * (Tree.ofProgram program).size ≤ config.limits.maxDepth → result = .ok v))
        w ((Operation.get a id).evaluator (program.subject rules) evaluator worker)

theorem Stmt.finds_reference (program : Stmt) (rules : RuleProvider) (a : Attribute) {id : Nat}
    (hid : id < (Tree.ofProgram program).size) :
    program.Finds rules a id ((program.outline 0).1.reference rules a id) := by
  intro config w h evaluator worker
  obtain ⟨hinv, -⟩ := Scene.inv_of_session (g := program.scene rules config False) True
    (program.shaped_outline 0) rfl
    (fun op _ hop => ⟨Stmt.permits_of_within hop.1, fun _ => hop.2⟩) h
  have hwithin : (Operation.get a id).Within (.ofProgram program) := by
    rintro c ⟨⟩
    exact ⟨rfl, hid⟩
  apply (Scene.ends_operation (program.shaped_outline 0) hinv
    (Stmt.permits_of_within hwithin) evaluator worker).mono
  rintro w' e ⟨result, hgave, hresult⟩
  have hvalue : ∀ found, result = .ok found →
      found = (program.outline 0).1.reference rules a id := by
    rintro found rfl
    exact hresult.2.2 trivial
  refine ⟨result, hgave, hvalue, ?_⟩
  intro hroom
  rw [program.size_scene rules config False] at hroom
  obtain ⟨v, rfl⟩ := (hresult.tight not_false).2 hroom
  rw [hvalue v rfl]

theorem Stmt.Finds.unique {program : Stmt} {rules : RuleProvider} {a : Attribute} {id : NodeId}
    {v v' : a.Value} (h : program.Finds rules a id v) (h' : program.Finds rules a id v') :
    v = v' := by
  let config : Config := { limits := { maxDepth := 8 * (Tree.ofProgram program).size } }
  obtain ⟨w, e, hl, result, hgave, -, hv⟩ := (h config _ .start 0 none).exists_leads
  have hends := (h' config _ .start 0 none).of_leads
    (fun w e ⟨_, hgave, _⟩ pick => hgave.step_eq_none _ pick w) hl
  obtain ⟨result', hgave', -, hv'⟩ := hends.result (hgave.step_eq_none _ 0 w)
  have heq := hgave.focus.symm.trans hgave'.focus
  rw [hv (Nat.le_refl _), hv' (Nat.le_refl _)] at heq
  cases heq
  rfl

theorem Stmt.finds_iff {program : Stmt} {rules : RuleProvider} {a : Attribute} {id : Nat}
    (hid : id < (Tree.ofProgram program).size) {v : a.Value} :
    program.Finds rules a id v ↔ (program.outline 0).1.reference rules a id = v := by
  constructor
  · exact (program.finds_reference rules a hid).unique
  · rintro rfl
    exact program.finds_reference rules a hid

/-- What an attribute of a node is, without cells or an order of evaluation. A
constant is folded, unless it depends on itself or on one that does. -/
def Outline.Denotes (o : Outline) (r : Rules) : (a : Attribute) → NodeId → a.Value → Prop
  | .constant, id, v => ((Tree.ofOutline o).ReachesCycle id → v = none) ∧
    (¬(Tree.ofOutline o).ReachesCycle id → (Tree.ofOutline o).Folds id v)
  | a, id, v => v = o.reference r a id

theorem Outline.denotes_reference (o : Outline) (r : Rules) (a : Attribute) (id : NodeId) :
    o.Denotes r a id (o.reference r a id) := by
  cases a with
  | constant =>
    rw [Outline.reference_constant]
    exact ⟨Tree.constantOf_of_reachesCycle, Tree.folds_constantOf⟩
  | _ => rfl

def selfReference : Stmt :=
  .const "x" (.name "x")

/-- **No internal error.** Whatever operations on the tree have gone before, with
whatever results, an operation on the tree never crashes and comes to an end. It
fails only if the stack gets too deep, which it does not if there is room for one
unit per slot. -/
theorem operation_safe (program : Stmt) (rules : Rules) (config : Config)
    {w : World Attribute.schema}
    (h : Session (program.subject rules) config (fun op _ => op.Within (.ofProgram program)) w)
    {op : Operation} (hop : op.Within (.ofProgram program)) (id : EvaluatorId)
    (worker : Option Nat) :
    (∀ w' e, Leads (program.subject rules).model w (op.evaluator (program.subject rules) id worker)
      w' e → e.focus ≠ .crashed) ∧
    Ends (program.subject rules).model (fun _ e => ∃ result, e.Gave result ∧
        (∀ x, result = .error x → ∃ label, x = .depthExceeded label config.limits.maxDepth) ∧
        (8 * (Tree.ofProgram program).size ≤ config.limits.maxDepth → ∃ reply, result = .ok reply))
      w (op.evaluator (program.subject rules) id worker) := by
  obtain ⟨hinv, -⟩ := Scene.inv_of_session (g := program.scene rules config False) False
    (program.shaped_outline 0) rfl (fun op _ hop => ⟨Stmt.permits_of_within hop, False.elim⟩) h
  have hends := Scene.ends_operation (program.shaped_outline 0) hinv
    (Stmt.permits_of_within hop) id worker
  constructor
  · intro w' e hl
    apply (hends.of_leads (fun _ _ hend => hend.step_eq_none) hl).not_crashed
    rintro w' e ⟨result, hgave, -⟩ hcrashed
    rw [hgave.focus] at hcrashed
    cases hcrashed
  · apply hends.mono
    rintro w' e ⟨result, hgave, hresult⟩
    have htight := hresult.tight not_false
    rw [← program.size_scene rules config False] at htight
    exact ⟨result, hgave, htight⟩

/-- A constant that refers to itself can be cleared and read. -/
theorem operation_safe_selfReference :
    ∃ w w' e reply,
      Session (selfReference.subject {}) {} (fun op _ => op.Within (.ofProgram selfReference)) w ∧
      Leads (selfReference.subject {}).model w
        ((Operation.get .constant 0).evaluator (selfReference.subject {}) 1 none) w' e ∧
      e.Gave (.ok reply) := by
  have hreset : (Operation.reset ⟨.standard .constant, 1⟩).Within (.ofProgram selfReference) := by
    rintro c ⟨⟩
    exact ⟨rfl, by decide⟩
  have hget : (Operation.get .constant 0).Within (.ofProgram selfReference) := by
    rintro c ⟨⟩
    exact ⟨rfl, by decide⟩
  obtain ⟨w, e, hl, result, hgave, -⟩ :=
    (operation_safe selfReference {} {} .start hreset 0 none).2.exists_leads
  have hw : Session (selfReference.subject {}) {}
      (fun op _ => op.Within (.ofProgram selfReference)) w :=
    .operate .start _ 0 none hl hgave hreset
  obtain ⟨w', e', hl', result', hgave', -, hok⟩ :=
    (operation_safe selfReference {} {} hw hget 1 none).2.exists_leads
  obtain ⟨reply, rfl⟩ := hok (by decide)
  exact ⟨w, w', e', reply, hw, hl', hgave'⟩

/-- **The engine refines direct recursion.** As long as no operation has ended
with an error, whatever is read is what the program's outline determines. -/
theorem get_denotes (program : Stmt) (rules : Rules) (config : Config)
    {w : World Attribute.schema}
    (h : Session (program.subject rules) config (fun _ result => ∃ reply, result = .ok reply) w)
    (a : Attribute) (id : NodeId) (evaluator : EvaluatorId) (worker : Option Nat)
    {w' : World Attribute.schema} {e : Evaluator Attribute.schema (Except Error a.Value)}
    (hl : Leads (program.subject rules).model w
      ((Operation.get a id).evaluator (program.subject rules) evaluator worker) w' e)
    {v : a.Value} (hgave : e.Gave (.ok v)) : (program.outline 0).1.Denotes rules a id v := by
  let g : Scene := program.scene rules config True
  have hs : g.outline.Shaped := program.shaped_outline 0
  have hpermits : ∀ op : Operation, g.Permits op := fun op c _ hl => absurd trivial hl
  obtain ⟨hinv, -⟩ := Scene.inv_of_session (g := g) True hs rfl
    (fun op _ hok => ⟨hpermits op, fun _ => hok⟩) h
  obtain ⟨-, -, hv⟩ := Scene.concludes_of_leads hs hinv (hpermits (.get a id)) hl hgave
  rw [hv trivial]
  exact Outline.denotes_reference _ rules a id

/-- Whichever end of the circle is asked for first, there is no constant. -/
theorem get_denotes_selfReference :
    ∃ w w' e,
      Session (selfReference.subject {}) {} (fun _ result => ∃ reply, result = .ok reply) w ∧
      Leads (selfReference.subject {}).model w
        ((Operation.get .constant 0).evaluator (selfReference.subject {}) 1 none) w' e ∧
      e.Gave (.ok none) := by
  let g : Scene := ⟨(selfReference.outline 0).1, {}, 1024, False⟩
  have hs : g.outline.Shaped := selfReference.shaped_outline 0
  have hcycle : (Tree.ofProgram selfReference).ReachesCycle 0 :=
    ⟨0, .refl, .tail (.single (by decide : 1 ∈ (Tree.ofProgram selfReference).operands 0))
      (by decide : 0 ∈ (Tree.ofProgram selfReference).operands 1)⟩
  obtain ⟨w, e, v, hl, hgave, hinv⟩ := Scene.exists_get (g := g) hs id (by decide)
    (Scene.inv_start {} rfl) .constant (show 1 < g.outline.size by decide) 0 none
  have hw : Session (selfReference.subject {}) {} (fun _ result => ∃ reply, result = .ok reply) w :=
    .operate .start _ 0 none hl hgave ⟨v, rfl⟩
  obtain ⟨w', e', v', hl', hgave', -⟩ := Scene.exists_get (g := g) hs id (by decide) hinv
    .constant (show 0 < g.outline.size by decide) 1 none
  obtain rfl : v' = none :=
    (get_denotes selfReference {} {} hw .constant 0 1 none hl' hgave').1 hcycle
  exact ⟨w, w', e', hw, hl', hgave'⟩

end Attribution
