import Attribution.Proofs.Analysis.Circle
/-!
# The books

The accounts of an analysis (`Kept`) together with those of the circles that have been
found (`Circles`). Most of what happens changes neither (`Calm`).
-/

namespace Attribution

open Engine

/-- Whether a unit has succeeded. One that is going to fail counts as failed. -/
def Engine.Status.verdict? : Status → Option Bool
  | .success => some true
  | .fail | .runningWillFail => some false
  | _ => none

namespace Engine.World

variable (w : World Attribute.schema)

def verdict? (id : NodeId) : Option Bool :=
  (w.stage ⟨.standard .constant, id⟩).bind Status.verdict?

def circles : List Diagnostic :=
  w.ledger.buffer.toList.filter fun d => d.kind = .cyclicDefinition

/-- Nothing has changed that the books depend on. -/
structure Calm (w w' : World Attribute.schema) : Prop where
  steady : Steady w w'
  verdict : w'.verdict? = w.verdict?

variable {w} {w' : World Attribute.schema} {c : CellKey} {status : Status}

theorem verdict?_of_stage (hc : c.family = .standard .constant) (h : w.stage c = some status) :
    w.verdict? c.node = status.verdict? := by
  obtain ⟨f, id⟩ := c
  cases hc
  rw [verdict?, h]
  rfl

theorem verdict?_eq_of_stage (h : ∀ c, c.family = .standard .constant → w'.stage c = w.stage c) :
    w'.verdict? = w.verdict? := by
  ext1 id
  rw [verdict?, verdict?, h _ rfl]

theorem Edited.verdict (h : Edited c w w') (hc : c.family = .standard .constant)
    (hs : w'.stage c = some status) :
    w'.verdict? = Function.update w.verdict? c.node status.verdict? := by
  ext1 id
  by_cases hid : id = c.node
  · rw [hid, Function.update_self, verdict?_of_stage hc hs]
  · rw [Function.update_of_ne hid, verdict?, verdict?, h.stage]
    rintro rfl
    exact hid rfl

theorem Edited.verdict_of_ne (h : Edited c w w') (hc : c.family ≠ .standard .constant) :
    w'.verdict? = w.verdict? := by
  apply verdict?_eq_of_stage
  intro d hd
  apply h.stage
  rintro rfl
  exact hc hd

theorem Edited.verdict_of_eq (h : Edited c w w') {status' : Status} (hs : w.stage c = some status)
    (hs' : w'.stage c = some status') (heq : status'.verdict? = status.verdict?) :
    w'.verdict? = w.verdict? := by
  by_cases hc : c.family = .standard .constant
  · rw [h.verdict hc hs', heq, ← verdict?_of_stage hc hs, Function.update_eq_self]
  · exact h.verdict_of_ne hc

theorem calm_note (w : World Attribute.schema) (origin : Option Nat) (event : Event) :
    Calm w (w.note origin event) :=
  ⟨steady_note w origin event, rfl⟩

theorem calm_hire (w : World Attribute.schema) (n : Nat) : Calm w { w with evaluators := n } :=
  ⟨⟨rfl, rfl, fun _ => rfl, fun _ => rfl, fun _ => rfl⟩, rfl⟩

theorem Calm.trans {w'' : World Attribute.schema} (h : Calm w w') (h' : Calm w' w'') :
    Calm w w'' where
  steady := ⟨h'.steady.reporter.trans h.steady.reporter, h'.steady.buffer.trans h.steady.buffer,
    fun c => (h'.steady.resolver c).trans (h.steady.resolver c),
    fun c => (h'.steady.ended c).trans (h.steady.ended c),
    fun c => (h'.steady.forced c).trans (h.steady.forced c)⟩
  verdict := h'.verdict.trans h.verdict

theorem circles_report (hhome : Analysis.home < w.schedulers.size)
    (hbuffered : w.ledger.reporter = .buffer) (m : Model Attribute.schema) (origin : Option Nat)
    (d : Diagnostic) : (w.report m origin Analysis.home d).circles =
      w.circles ++ if d.kind = .cyclicDefinition then [d] else [] := by
  rw [circles, ledger_report hhome hbuffered, Array.toList_push, List.filter_append]
  congr 1
  split
  · rw [List.filter_cons_of_pos (by simpa)]
    rfl
  · rw [List.filter_cons_of_neg (by simpa)]
    rfl

end Engine.World

namespace Scene

variable (g : Scene)

/-- The books are in order; `blame` is who is accused, and `told` is what units have told
that have not ended. -/
structure Books (w : World Attribute.schema) (frames : List (Frame Attribute.schema))
    (blame : Option NodeId) (told : Multiset Diagnostic) : Prop where
  kept : g.Kept w told
  circles : g.Circles w.verdict? w.circles frames blame

/-- Whatever has happened, the books have been kept and nothing is to be added. -/
def Keeps (frames : List (Frame Attribute.schema)) (w w' : World Attribute.schema) : Prop :=
  ∀ blame told, g.Books w frames blame told → g.Books w' frames blame told

variable {g} {w w' : World Attribute.schema} {c : CellKey} {u : WorkUnit CellKey}
  {frames : List (Frame Attribute.schema)} {f : Frame Attribute.schema}
  {told : Multiset Diagnostic} {blame : Option NodeId} {id : NodeId}

namespace Books

theorem calm (h : g.Books w frames blame told) (hc : World.Calm w w') :
    g.Books w' frames blame told where
  kept := h.kept.steady hc.steady
  circles := by
    rw [hc.verdict, World.circles, hc.steady.buffer]
    exact h.circles

theorem report (h : g.Books w frames blame told) {m : Model Attribute.schema}
    (hhome : Analysis.home < w.schedulers.size) {origin : Option Nat} {d : Diagnostic}
    (hs : World.Same w (w.report m origin Analysis.home d)) (hd : d.kind ≠ .cyclicDefinition) :
    g.Books (w.report m origin Analysis.home d) frames blame (told + {d}) where
  kept := by
    have hkept := h.kept.report hhome hs
    rw [Diagnostic.counted, if_neg hd] at hkept
    exact hkept
  circles := by
    rw [World.circles_report hhome h.kept.buffered, if_neg hd, List.append_nil,
      World.verdict?_eq_of_stage fun c _ => hs.stage c]
    exact h.circles

theorem create (h : g.Books w frames blame told) (hw : g.Wired w) (hn : World.Renewed c u w w')
    (hfree : w.resolver? c = none) (hc : g.Wanted c) : g.Books w' frames blame told where
  kept := h.kept.create hw hn hfree hc
  circles := by
    have hverdict : w'.verdict? = w.verdict? := by
      ext1 id
      by_cases hd : ⟨.standard .constant, id⟩ = c
      · rw [World.verdict?, World.verdict?, hd, hn.stage_self, World.stage, hfree]
        rfl
      · rw [World.verdict?, World.verdict?, hw.stage_renew hn hd]
    rw [hverdict, World.circles, hn.ledger]
    exact h.circles

theorem doom (h : g.Books w (f :: frames) none told) (hf : f.cell.family ≠ .standard .constant)
    (he : World.Edited f.cell w w') (hs : World.Steady w w') :
    g.Books w' ({ f with doomed := true } :: frames) none told where
  kept := h.kept.steady hs
  circles := by
    rw [he.verdict_of_ne hf, World.circles, hs.buffer]
    exact h.circles.doom hf

theorem convict (h : g.Books w (f :: frames) (some id) told)
    (hf : f.cell = ⟨.standard .constant, id⟩) (hid : w.verdict? id = none)
    (he : World.Edited f.cell w w') (hstage : w'.stage f.cell = some .runningWillFail)
    (hs : World.Steady w w') (hhome : Analysis.home < w'.schedulers.size)
    {m : Model Attribute.schema} {origin : Option Nat}
    (hsame : World.Same w' (w'.report m origin Analysis.home
      ((g.outline.subject g.rules).circle id))) :
    g.Books (w'.report m origin Analysis.home ((g.outline.subject g.rules).circle id))
      ({ f with doomed := true } :: frames) none told where
  kept := by
    have hkept := (h.kept.steady hs).report hhome hsame
    rw [Diagnostic.counted, if_pos (Subject.kind_circle _ _), Multiset.add_zero] at hkept
    exact hkept
  circles := by
    have hbuffered : w'.ledger.reporter = .buffer := by
      rw [hs.reporter]
      exact h.kept.buffered
    have hverdict := he.verdict (by rw [hf]) hstage
    rw [World.circles_report hhome hbuffered, if_pos (Subject.kind_circle _ _),
      World.verdict?_eq_of_stage fun c _ => hsame.stage c, hverdict, World.circles, hs.buffer, hf]
    exact h.circles.convict hf hid

end Books

end Scene

end Attribution
