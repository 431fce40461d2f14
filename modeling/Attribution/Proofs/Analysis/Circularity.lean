import Attribution.Proofs.Analysis.Session
/-!
# Circular evaluation

Only constants lead back to themselves. Whatever is asked of an analysis, a unit that
is entered while it runs is the unit of a constant, and so is one whose run does not
count or leaves a value behind that is not final. The units of all other attributes ask
for each other in a well-founded way, although the equations of `reachable`,
`completes`, `breaks` and `continues` read each other up, down and to the left in the
tree.
-/

namespace Attribution

open Engine

namespace Engine.Evaluator

section

variable {S : Schema} {α : Type}

def Reenters (e : Evaluator S α) (u : WorkUnit S.Rule) : Prop :=
  e.writes = [] ∧ e.focus = .enter u ∧ ∃ f ∈ e.frames, f.unit.id = u.id

def Closes (e : Evaluator S α) (f : Frame S) (outcome : Attempt) : Prop :=
  e.writes = [] ∧ ∃ result rest, e.focus = .closing result ∧ e.frames = f :: rest ∧
    (f.outcome result).2 = outcome

end

/-- The unit of `d` is on top of the stack, and its code reads `c` or the unit of `c` is
about to be entered. -/
def Consults {α : Type} (e : Evaluator Attribute.schema α) (d c : CellKey) : Prop :=
  ∃ f rest, e.frames = f :: rest ∧ f.cell = d ∧ (e.request? = some (.probe c) ∨
    ∃ u : WorkUnit CellKey, e.writes = [] ∧ e.focus = .enter u ∧ u.rule = c)

end Engine.Evaluator

namespace Scene

variable {g : Scene} {clean : Prop} {w w' : World Attribute.schema} {c d : CellKey} {α : Type}
  {e : Evaluator Attribute.schema α} {u : WorkUnit CellKey}

/-- Where a cell stands in the order of cells that do not depend on themselves. -/
def position (g : Scene) : CellKey → Nat × Nat × Nat
  | ⟨.standard a, id⟩ => (a.phase, g.outline.rank g.rules a id)
  | ⟨.word _, _⟩ => (0, 0, 0)

theorem wellFounded_before : WellFounded g.Before := by
  apply Subrelation.wf _ (InvImage.wf g.position (WellFounded.prod_lex Nat.lt_wfRel.wf
    (WellFounded.prod_lex Nat.lt_wfRel.wf Nat.lt_wfRel.wf)))
  rintro ⟨f, id⟩ ⟨f', m⟩ h
  cases f with
  | word a => exact h.elim
  | standard a =>
  cases f' with
  | word b => exact h.elim
  | standard b =>
    change Prod.Lex _ _ (a.phase, g.outline.rank g.rules a id) (b.phase, g.outline.rank g.rules b m)
    rcases h with h | ⟨hphase, -, hrank⟩
    · exact .left _ _ h
    · rw [hphase]
      apply Prod.Lex.right
      rw [Prod.lex_def]
      exact hrank

theorem before_of_under (h : g.Under d c) (hd : d.family ≠ .standard .constant) :
    g.Before c d := by
  rcases before_or_dependsOn_of_under h with hb | hdep
  · exact hb
  · exact absurd hdep.1 hd

theorem constant_of_reenters (h : g.watch.Allows w e) (hu : e.Reenters u) :
    u.rule.family = .standard .constant := by
  obtain ⟨hwrites, hfocus, f, hf, hid⟩ := hu
  obtain ⟨c, hinv, hres, hasks⟩ := h.enters u hwrites hfocus
  have hcell : f.cell = c := hinv.wired.distinct _ _ _ _ (hinv.stacked.held f hf) hres hid
  rw [(hinv.wired.serves c u hres).rule, ← hcell]
  rw [← hcell] at hasks
  obtain ⟨above, below, hframes⟩ := List.append_of_mem hf
  have hlinked := hinv.stacked.linked
  rw [hframes] at hlinked hasks
  exact (hlinked.lost_of_asked hasks f List.mem_cons_self).1

theorem under_of_consults (h : g.watch.Allows w e) (hc : e.Consults d c) : g.Under d c := by
  obtain ⟨f, rest, hframes, rfl, hread | ⟨u, hwrites, hfocus, rfl⟩⟩ := hc
  · exact h.reads c hread f rest hframes
  · obtain ⟨c, hinv, hres, hasks⟩ := h.enters u hwrites hfocus
    rw [(hinv.wired.serves c u hres).rule]
    exact hasks f rest hframes

theorem allows_of_leads (hs : g.outline.Shaped) (h : g.Inv clean w []) {op : Operation}
    (hop : g.Permits op) {id : EvaluatorId} {worker : Option Nat}
    {e : Evaluator Attribute.schema (Except Error op.Reply)}
    (hl : Leads g.model w (op.evaluator g.subject id worker) w' e) : g.watch.Allows w' e := by
  refine (watched_operation hs h hop id worker).allows_of_leads (fun w e hend => ?_) hl
  refine ⟨hend.step_eq_none, ?_⟩
  obtain ⟨result, hgave, -⟩ := hend
  exact hgave.allows g.watch w

end Scene

/-! ## Programs -/

/-- An operation is under way, whatever the analysis has been asked for before. -/
inductive Stmt.UnderWay (program : Stmt) (rules : RuleProvider) (op : Operation) :
    World Attribute.schema → Evaluator Attribute.schema (Except Error op.Reply) → Prop where
  | of_leads (config : Config) {w w' : World Attribute.schema}
    {e : Evaluator Attribute.schema (Except Error op.Reply)}
    (h : Session (program.subject rules) config (fun _ _ => True) w) (id : EvaluatorId)
    (worker : Option Nat)
    (hl : Leads (program.subject rules).model w (op.evaluator (program.subject rules) id worker)
      w' e) : UnderWay program rules op w' e

def Stmt.Consults (program : Stmt) (rules : RuleProvider) (d c : CellKey) : Prop :=
  ∃ (op : Operation) (w : World Attribute.schema)
    (e : Evaluator Attribute.schema (Except Error op.Reply)),
    program.UnderWay rules op w e ∧ e.Consults d c

namespace Stmt

variable {program : Stmt} {rules : RuleProvider} {op : Operation} {w : World Attribute.schema}
  {e : Evaluator Attribute.schema (Except Error op.Reply)}

theorem inv_of_session {config : Config}
    (h : Session (program.subject rules) config (fun _ _ => True) w) :
    (program.scene rules config True).Inv False w [] :=
  (Scene.inv_of_session (g := program.scene rules config True) False (program.shaped_outline 0) rfl
    (fun _ _ _ => ⟨fun _ _ hl => absurd trivial hl, False.elim⟩) h).1

theorem UnderWay.allows (h : program.UnderWay rules op w e) :
    ∃ config, (program.scene rules config True).watch.Allows w e := by
  obtain ⟨config, h, id, worker, hl⟩ := h
  exact ⟨config, Scene.allows_of_leads (program.shaped_outline 0) (inv_of_session h)
    (fun _ _ hl => absurd trivial hl) hl⟩

theorem Consults.before {c d : CellKey} (h : program.Consults rules d c)
    (hd : d.family ≠ .standard .constant) : (program.scene rules {} True).Before c d := by
  obtain ⟨op, w, e, hway, hconsults⟩ := h
  obtain ⟨config, hallows⟩ := hway.allows
  have hbefore := Scene.before_of_under (Scene.under_of_consults hallows hconsults) hd
  -- How deep the stack may be has no part in the order.
  exact hbefore

/-- **Only constants are circular.** Whatever the analysis has been asked for and is being
asked for, a unit that is entered again while it runs, ends provisionally, or leaves its
cell with a value that is not final, is the unit of a constant; no other value is
found to be soft between two operations. What the units of all other attributes ask for
is well-founded. -/
theorem only_constants_circular (program : Stmt) (rules : RuleProvider) :
    (∀ op w e, program.UnderWay rules op w e →
      (∀ u, e.Reenters u → u.rule.family = .standard .constant) ∧
      ∀ f outcome, e.Closes f outcome → outcome = .provisional ∨ (∃ v, w.content f.cell = .soft v) →
        f.cell.family = .standard .constant) ∧
    (∀ config w, Session (program.subject rules) config (fun _ _ => True) w →
      ∀ c v, w.content c = .soft v → c.family = .standard .constant) ∧
    WellFounded fun c d => d.family ≠ .standard .constant ∧ program.Consults rules d c := by
  refine ⟨fun op w e hway => ?_, fun config w h => (inv_of_session h).valued.soft, ?_⟩
  · obtain ⟨config, hallows⟩ := hway.allows
    refine ⟨fun u => Scene.constant_of_reenters hallows, ?_⟩
    rintro f _ ⟨hwrites, result, rest, hfocus, hframes, rfl⟩ hbad
    by_contra hne
    obtain ⟨hfinal, hsoft⟩ := hallows.leaves result f rest hwrites hfocus hframes hne
    rcases hbad with hbad | ⟨v, hv⟩
    · exact hfinal hbad
    · exact hsoft v hv
  · exact Subrelation.wf (fun h => h.2.before h.1) Scene.wellFounded_before

def selfReferenceThenJump : Stmt :=
  .block [selfReference, .breakTo none]

/-- The constant is entered again. Whether the jump is reached depends on whether the
declaration completes, which then does not depend on the jump. -/
theorem only_constants_circular_selfReferenceThenJump :
    (∃ w e u, selfReferenceThenJump.UnderWay {} (.get .constant 1) w e ∧ e.Reenters u ∧
      u.rule.family = .standard .constant) ∧
    selfReferenceThenJump.Consults {} ⟨.standard .reachable, 3⟩ ⟨.standard .completes, 1⟩ ∧
    ¬selfReferenceThenJump.Consults {} ⟨.standard .completes, 1⟩ ⟨.standard .reachable, 3⟩ := by
  obtain ⟨hway, -, hwf⟩ := only_constants_circular selfReferenceThenJump {}
  have hagain : selfReferenceThenJump.UnderWay {} (.get .constant 1) _ _ :=
    .of_leads {} .start 0 none (Evaluator.leads_run _ 16 _ _)
  have hreads : selfReferenceThenJump.UnderWay {} (.get .reachable 3) _ _ :=
    .of_leads {} .start 0 none (Evaluator.leads_run _ 11 _ _)
  have hleft : selfReferenceThenJump.Consults {} ⟨.standard .reachable, 3⟩ ⟨.standard .completes, 1⟩ :=
    ⟨_, _, _, hreads, _, _, rfl, rfl, .inl rfl⟩
  refine ⟨⟨_, _, _, hagain, ⟨rfl, rfl, _, .tail _ (.head _), rfl⟩, ?_⟩, hleft, fun hback => ?_⟩
  · exact (hway _ _ _ hagain).1 _ ⟨rfl, rfl, _, .tail _ (.head _), rfl⟩
  · exact hwf.asymmetric _ _ ⟨by decide, hleft⟩ ⟨by decide, hback⟩

end Stmt

end Attribution
