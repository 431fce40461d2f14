import Attribution.Proofs.Analysis.Diagnosis
import Attribution.Proofs.Engine.Growth
/-!
# Code that does not look for dead code

No equation asks whether dead code begins at a node (`overlooks_equation`). So the body
of a cell creates no cell for dead code (`spares_body`), and the diagnosis of a node
creates at most the one of that node (`spares_diagnoseNode`).
-/

namespace Attribution

open Engine

/-! ## Equations that do not ask for dead code -/

namespace Equation

variable {α β : Type}

/-- The equation does not ask whether dead code begins at a node. -/
def Overlooks : Equation α → Prop
  | .done _ | .stop _ | .malformed => True
  | .probe a _ next => a ≠ .unreachable ∧ ∀ p, (next p).Overlooks
  | .fail _ next | .report _ next => next.Overlooks

theorem Overlooks.bind {x : Equation α} {f : α → Equation β} (hx : x.Overlooks)
    (hf : ∀ a, (f a).Overlooks) : (x >>= f).Overlooks := by
  change (x.bind f).Overlooks
  induction x with
  | done a => exact hf a
  | probe a id next ih => exact ⟨hx.1, fun p => ih p (hx.2 p)⟩
  | fail d next ih => exact ih hx
  | report d next ih => exact ih hx
  | stop e => trivial
  | malformed => trivial

theorem Silent.overlooks {x : Equation α} (h : x.Silent) : x.Overlooks := by
  induction x with
  | done a => trivial
  | probe a id next ih => exact ⟨h.1.1, fun p => ih p (h.2 p)⟩
  | fail d next => exact h.elim
  | report d next => exact h.elim
  | stop e => trivial
  | malformed => trivial

theorem overlooks_read {a : Attribute} {id : NodeId} (ha : a ≠ .unreachable) :
    (read a id).Overlooks :=
  ⟨ha, fun _ => trivial⟩

end Equation

namespace Subject

open Equation

variable (s : Subject)

theorem overlooks_node (id : NodeId) : (s.node id).Overlooks :=
  (s.silent_node id).overlooks

theorem overlooks_valueOf (id : NodeId) (n : Node) (dep : NodeId) :
    (s.valueOf id n dep).Overlooks := by
  refine ⟨nofun, fun p => ?_⟩
  cases p with
  | _ => trivial

theorem overlooks_constant (id : NodeId) : (s.constant id).Overlooks := by
  refine .bind (s.overlooks_node id) fun n => ?_
  split
  · trivial
  · trivial
  · split
    · exact s.overlooks_valueOf _ _ _
    · trivial
  · split
    · exact s.overlooks_valueOf _ _ _
    · trivial
  · refine .bind (n.silent_child 0).overlooks fun dep => ?_
    exact .bind (s.overlooks_valueOf _ _ _) fun _ => trivial
  · refine .bind (n.silent_child 0).overlooks fun left => ?_
    refine .bind (s.overlooks_valueOf _ _ _) fun _ => ?_
    refine .bind (n.silent_child 1).overlooks fun right => ?_
    refine .bind (s.overlooks_valueOf _ _ _) fun _ => ?_
    split
    · trivial
    · trivial
  · trivial

theorem overlooks_jumpLabels (id : NodeId) (n : Node) (label : Option String) :
    (s.jumpLabels id n label).Overlooks := by
  unfold jumpLabels
  split
  · trivial
  · refine .bind (overlooks_read nofun) fun live => ?_
    split
    · trivial
    · trivial
  · trivial

theorem overlooks_escapes (j : Jump) (id : NodeId) : (s.escapes j id).Overlooks := by
  refine .bind (s.overlooks_node id) fun n => ?_
  split
  · exact s.overlooks_jumpLabels _ _ _
  · exact s.overlooks_jumpLabels _ _ _
  · trivial
  · trivial
  · exact .bind (silent_escapingAny _ _ _).overlooks fun _ => (s.silent_absorb _ _ _ _).overlooks

theorem overlooks_raised (id : NodeId) : (s.raised id).Overlooks := by
  unfold raised
  split
  · trivial
  · exact .bind (s.overlooks_node id) fun _ => trivial

theorem overlooks_propagatedAny (found : TypeSet) (ids : List NodeId) :
    (propagatedAny found ids).Overlooks := by
  induction ids generalizing found with
  | nil => trivial
  | cons id rest ih => exact .bind (overlooks_read nofun) fun _ => ih _

theorem overlooks_leavingTry (id : NodeId) : (s.leavingTry id).Overlooks := by
  refine .bind (s.silent_tryShape id).overlooks fun parts => ?_
  refine .bind (overlooks_read nofun) fun _ => ?_
  refine .bind (overlooks_propagatedAny _ _) fun _ => ?_
  split
  · trivial
  · refine .bind (overlooks_read nofun) fun _ => .bind (overlooks_read nofun) fun _ => ?_
    split
    · trivial
    · trivial

theorem overlooks_propagated (id : NodeId) : (s.propagated id).Overlooks := by
  refine .bind (overlooks_read nofun) fun _ => ?_
  split
  · trivial
  · refine .bind (overlooks_read nofun) fun _ => .bind (s.overlooks_node id) fun n => ?_
    split
    · exact .bind (s.overlooks_leavingTry id) fun _ => trivial
    · exact overlooks_propagatedAny _ _

theorem overlooks_unreachable (id : NodeId) : (s.unreachable id).Overlooks := by
  refine .bind (s.silent_beginsDeadCode id).overlooks fun begins => ?_
  split
  · exact .bind (s.overlooks_node id) fun _ => trivial
  · trivial

theorem overlooks_equation (a : Attribute) (id : NodeId) : (s.equation a id).Overlooks := by
  cases a with
  | reachable => exact (s.silent_reachable id).overlooks
  | completes => exact (s.silent_completes id).overlooks
  | breaks => exact s.overlooks_escapes .break id
  | continues => exact s.overlooks_escapes .continue id
  | propagated => exact s.overlooks_propagated id
  | constant => exact s.overlooks_constant id
  | unreachable => exact s.overlooks_unreachable id
  | raised => exact s.overlooks_raised id

end Subject

/-! ## Code that spares cells -/

/-- The action gives none of the cells a resolver. -/
def Eval.Spares {β : Type} (spared : CellKey → Prop) (x : Eval β) : Prop :=
  Action.Spares (S := Attribute.schema) spared x.run

theorem Eval.Spares.bind {β γ : Type} {spared : CellKey → Prop} {x : Eval β} {f : β → Eval γ}
    (hx : x.Spares spared) (hf : ∀ b, (f b).Spares spared) : (x >>= f).Spares spared := by
  refine Action.Spares.bind (S := Attribute.schema) hx fun r => ?_
  cases r with
  | ok b => exact hf b
  | error e => trivial

theorem Eval.spares_ask {spared : CellKey → Prop} {r : Request Attribute.schema}
    (hr : ∀ c, spared c → ¬r.Resolves c) : (Eval.ask r).Spares spared :=
  ⟨hr, fun _ => trivial⟩

def CellKey.OtherDead (id : NodeId) (c : CellKey) : Prop :=
  c.family = .standard .unreachable ∧ c.node ≠ id

namespace Subject

variable (s : Subject) {β : Type} {spared : CellKey → Prop} {id : NodeId}

theorem spares_occupy {c : CellKey} (hc : ¬spared c) : (s.occupy c).Spares spared := by
  unfold occupy
  split
  · trivial
  · refine .bind (Eval.spares_ask fun _ _ h => h) fun slots => ?_
    split
    · split
      · trivial
      · trivial
    · refine ⟨fun _ _ h => h, fun _ => ⟨fun _ _ h => h, fun u => ⟨?_, fun _ => trivial⟩⟩⟩
      rintro d hd rfl
      exact hc hd

theorem spares_probeCell {c : CellKey} (hc : ¬spared c) : (s.probeCell c).Spares spared := by
  refine .bind (s.spares_occupy hc) fun _ => ⟨fun _ _ h => h, fun r => ?_⟩
  cases r with
  | ok p => trivial
  | error e => trivial

theorem spares_read {a : Attribute} {m : NodeId} (hc : ¬spared ⟨.standard a, m⟩) :
    (s.read a m).Spares spared :=
  .bind (s.spares_probeCell hc) fun _ => trivial

theorem spares_solve {e : Equation β} (h : e.Overlooks) :
    (s.solve e).Spares (CellKey.OtherDead id) := by
  induction e with
  | done a => trivial
  | probe a m next ih =>
    refine .bind (s.spares_probeCell fun hc => h.1 ?_) fun p => ih p (h.2 p)
    exact Family.standard.inj hc.1
  | fail d next ih => exact .bind (Eval.spares_ask fun _ _ h => h) fun _ => ih h
  | report d next ih => exact .bind (Eval.spares_ask fun _ _ h => h) fun _ => ih h
  | stop e => trivial
  | malformed => exact .bind (Eval.spares_ask fun _ _ h => h) fun _ => trivial

theorem spares_body (c : CellKey) :
    Action.Spares (S := Attribute.schema) (CellKey.OtherDead id) (s.model.body c) := by
  have hequation : (s.cellEquation c).Overlooks := by
    obtain ⟨f, m⟩ := c
    cases f with
    | standard a => exact s.overlooks_equation a m
    | word a => trivial
  change (s.resolve c).Spares (CellKey.OtherDead id)
  refine .bind (Eval.spares_ask fun _ _ h => h) fun slots => ?_
  split
  · trivial
  · refine .bind (s.spares_solve hequation) fun v => ?_
    exact Action.Spares.bind (S := Attribute.schema)
      (Action.spares_deliver (S := Attribute.schema) c v) fun _ => trivial

theorem spares_diagnoseNode : (s.diagnoseNode id).Spares (CellKey.OtherDead id) := by
  have hown : ¬CellKey.OtherDead id ⟨.standard .unreachable, id⟩ := fun hc => hc.2 rfl
  cases hn : s.tree.node? id with
  | none =>
    unfold diagnoseNode
    rw [hn]
    trivial
  | some n =>
    rw [s.diagnoseNode_eq hn]
    refine .bind ?_ fun _ => ?_
    · cases hchecked : n.kind.checked? with
      | none => trivial
      | some a =>
        refine .bind (s.spares_read fun hc => ?_) fun _ => trivial
        obtain rfl := Family.standard.inj hc.1
        cases hk : n.kind with
        | _ =>
          rw [hk] at hchecked
          cases hchecked
    · split
      · exact s.spares_read hown
      · trivial

end Subject

end Attribution
