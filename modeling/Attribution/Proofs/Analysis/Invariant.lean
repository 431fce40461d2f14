import Attribution.Proofs.Analysis.Reliance
/-!
# The invariant of an evaluation

What holds whenever code of an analysis is about to make a request: the wiring
of the cells (`Wired`), the agreement of the stack with the stages of the cells
(`Stacked`), and the values (`Valued`). The clean part of the cells is the one that
no error has affected; there, every value is the one that belongs in its cell. As
long as no error has come up, all cells are clean.
-/

namespace Attribution

open Engine

namespace Scene

variable (g : Scene)

structure Stacked (w : World Attribute.schema) (frames : List (Frame Attribute.schema)) :
    Prop where
  held : ∀ f ∈ frames, w.resolver? f.cell = some f.unit
  running : ∀ f ∈ frames, ∃ status, w.stage f.cell = some status ∧ status.isRunning = true ∧
    (status = .runningWillFail ↔ f.doomed = true)
  on_stack : ∀ c status, w.stage c = some status → status.isRunning = true →
    ∃ f ∈ frames, f.cell = c
  nodup : (frames.map Frame.cell).Nodup
  fills : ∀ f ∈ frames, f.fills = []
  linked : g.Linked frames

structure Valued (clean : g.Part) (w : World Attribute.schema)
    (frames : List (Frame Attribute.schema)) : Prop where
  filled : ∀ c, w.stage c = some .success → (w.content c).isForced = true
  soft : ∀ c v, w.content c = .soft v → c.family = .standard .constant
  forced : ∀ c v, w.content c = .forced v →
    w.stage c = some .success ∨ w.stage c = some .fail ∧ v = c.family.sentinel
  agrees : ∀ c, clean c → ∀ v, (w.content c).value? = some v → v = g.value c
  failed : ∀ c, clean c → w.stage c = some .fail → g.Lost c
  lost : ∀ f ∈ frames, clean f.cell → (f.head.isSome || f.doomed) = true → g.Lost f.cell

structure Inv (clean : g.Part) (w : World Attribute.schema)
    (frames : List (Frame Attribute.schema)) : Prop where
  wired : g.Wired w
  stacked : g.Stacked w frames
  valued : g.Valued clean w frames

variable {g} {clean clean' : g.Part} {w w' : World Attribute.schema} {c : CellKey}
  {u : WorkUnit CellKey} {f e : Frame Attribute.schema}
  {frames above below : List (Frame Attribute.schema)} {status : Status}

namespace Stacked

theorem ne_of_mem_tail (h : g.Stacked w (f :: frames)) (he : e ∈ frames) : e.cell ≠ f.cell := by
  intro heq
  have hnodup := h.nodup
  rw [List.map_cons, List.nodup_cons] at hnodup
  exact hnodup.1 (heq ▸ List.mem_map_of_mem he)

theorem not_terminal (h : g.Stacked w (f :: frames)) (hs : w.stage f.cell = some status) :
    status.isTerminal = false := by
  obtain ⟨status', hs', hrun, -⟩ := h.running f List.mem_cons_self
  rw [hs] at hs'
  cases hs'
  cases status with
  | success | fail => cases hrun
  | _ => rfl

theorem off_of_idle (h : g.Stacked w frames) (hs : w.stage c = some status)
    (hidle : status.isRunning = false) : ∀ f ∈ frames, f.cell ≠ c := by
  intro f hf heq
  obtain ⟨status', hs', hrun, -⟩ := h.running f hf
  rw [heq, hs] at hs'
  cases hs'
  rw [hidle] at hrun
  cases hrun

theorem indexOf?_eq_none (h : g.Stacked w frames) (hu : w.resolver? c = some u)
    (hs : w.stage c = some status) (hidle : status.isRunning = false)
    (hw : g.Wired w) : Frame.indexOf? u.id frames = none := by
  rw [Frame.indexOf?_eq_none_iff]
  intro f hf heq
  exact h.off_of_idle hs hidle f hf (hw.distinct _ _ _ _ (h.held f hf) hu heq)

end Stacked

theorem Inv.mono (h : g.Inv clean w frames) (hclean : ∀ c, clean' c → clean c) :
    g.Inv clean' w frames :=
  ⟨h.wired, h.stacked, h.valued.filled, h.valued.soft, h.valued.forced,
    fun c hc => h.valued.agrees c (hclean c hc), fun c hc => h.valued.failed c (hclean c hc),
    fun f hf hc => h.valued.lost f hf (hclean f.cell hc)⟩

/-- What holds even if no cell is clean. -/
theorem Inv.bare (h : g.Inv clean w frames) : g.Inv False w frames :=
  h.mono fun _ => False.elim

theorem Valued.exact {clean : Prop} (h : g.Valued clean w frames) (hclean : clean) (c : CellKey)
    (v : c.family.Value) (hv : (w.content c).value? = some v) : v = g.value c :=
  h.agrees c hclean v hv

theorem Valued.not_forced (h : g.Valued clean w frames) (hs : w.stage c = some status)
    (ht : status.isTerminal = false) (v : c.family.Value) : w.content c ≠ .forced v := by
  intro hv
  rcases h.forced c v hv with hs' | ⟨hs', -⟩
  all_goals
    rw [hs] at hs'
    cases hs'
    cases ht

theorem Inv.edit_content (h : g.Inv clean w frames) (he : World.Edited c w w')
    (hstage : w'.stage c = w.stage c)
    (hfilled : w.stage c = some .success → (w'.content c).isForced = true)
    (hsoft : ∀ v, w'.content c = .soft v → c.family = .standard .constant)
    (hforced : ∀ v, w'.content c = .forced v →
      w.stage c = some .success ∨ w.stage c = some .fail ∧ v = c.family.sentinel)
    (hexact : clean c → ∀ v, (w'.content c).value? = some v → v = g.value c) :
    g.Inv clean w' frames := by
  have hstages : ∀ d, w'.stage d = w.stage d := by
    intro d
    by_cases hd : d = c
    · rw [hd, hstage]
    · exact he.stage d hd
  refine ⟨h.wired.edit_content he hstage, ⟨?_, ?_, ?_, h.stacked.nodup, h.stacked.fills,
    h.stacked.linked⟩, ⟨?_, ?_, ?_, ?_, ?_, h.valued.lost⟩⟩
  · intro f hf
    rw [he.resolver]
    exact h.stacked.held f hf
  · intro f hf
    rw [hstages]
    exact h.stacked.running f hf
  · intro d status hs
    rw [hstages] at hs
    exact h.stacked.on_stack d status hs
  · intro d hs
    rw [hstages] at hs
    by_cases hd : d = c
    · subst hd
      exact hfilled hs
    · rw [he.content d hd]
      exact h.valued.filled d hs
  · intro d v hv
    by_cases hd : d = c
    · subst hd
      exact hsoft v hv
    · rw [he.content d hd] at hv
      exact h.valued.soft d v hv
  · intro d v hv
    rw [hstages]
    by_cases hd : d = c
    · subst hd
      exact hforced v hv
    · rw [he.content d hd] at hv
      exact h.valued.forced d v hv
  · intro d hc v hv
    by_cases hd : d = c
    · subst hd
      exact hexact hc v hv
    · rw [he.content d hd] at hv
      exact h.valued.agrees d hc v hv
  · intro d hc hs
    rw [hstages] at hs
    exact h.valued.failed d hc hs

theorem Inv.same (h : g.Inv clean w frames) (hs : World.Same w w') : g.Inv clean w' frames := by
  apply h.edit_content (hs.edited ⟨.standard .constant, 0⟩) (hs.stage _)
  · rw [hs.content]
    exact h.valued.filled _
  · rw [hs.content]
    exact h.valued.soft _
  · rw [hs.content]
    exact h.valued.forced _
  · intro hc v hv
    rw [hs.content] at hv
    exact h.valued.agrees _ hc v hv

/-! ## Changes of the stack -/

theorem Inv.claim (h : g.Inv clean w frames) (hu : w.resolver? c = some u)
    (hnew : w.stage c = some .new) (hasks : g.Asks frames c) (he : World.Edited c w w')
    (hstage : w'.stage c = some .running) (hcontent : w'.content c = w.content c) :
    g.Inv clean w' ({ unit := u } :: frames) := by
  have hrule : u.rule = c := (h.wired.serves c u hu).rule
  have hcell : Frame.cell { unit := u } = c := hrule
  have hother : ∀ f ∈ frames, f.cell ≠ c := by
    intro f hf heq
    obtain ⟨status, hs, hrun, -⟩ := h.stacked.running f hf
    rw [heq, hnew] at hs
    cases hs
    cases hrun
  have hcontents : ∀ d, w'.content d = w.content d := by
    intro d
    by_cases hd : d = c
    · rw [hd, hcontent]
    · exact he.content d hd
  refine ⟨h.wired.edit he ?_, ⟨?_, ?_, ?_, ?_, ?_, ?_⟩, ⟨?_, ?_, ?_, ?_, ?_, ?_⟩⟩
  · intro x _ _ status hs
    rw [hstage] at hs
    cases hs
    rfl
  · intro f hf
    rw [he.resolver]
    rcases List.mem_cons.1 hf with rfl | hf
    · rw [hcell]
      exact hu
    · exact h.stacked.held f hf
  · intro f hf
    rcases List.mem_cons.1 hf with rfl | hf
    · rw [hcell]
      exact ⟨.running, hstage, rfl, by simp⟩
    · rw [he.stage _ (hother f hf)]
      exact h.stacked.running f hf
  · intro d status hs hrun
    by_cases hd : d = c
    · exact ⟨_, List.mem_cons_self, hcell.trans hd.symm⟩
    · rw [he.stage d hd] at hs
      obtain ⟨f, hf, heq⟩ := h.stacked.on_stack d status hs hrun
      exact ⟨f, List.mem_cons_of_mem _ hf, heq⟩
  · rw [List.map_cons, List.nodup_cons, hcell]
    refine ⟨fun hmem => ?_, h.stacked.nodup⟩
    obtain ⟨f, hf, heq⟩ := List.mem_map.1 hmem
    exact hother f hf heq
  · intro f hf
    rcases List.mem_cons.1 hf with rfl | hf
    · rfl
    · exact h.stacked.fills f hf
  · exact h.stacked.linked.push (by rw [hcell]; exact hasks) rfl
  · intro d hs
    by_cases hd : d = c
    · rw [hd, hstage] at hs
      cases hs
    · rw [he.stage d hd] at hs
      rw [hcontents]
      exact h.valued.filled d hs
  · intro d
    rw [hcontents]
    exact h.valued.soft d
  · intro d v hv
    rw [hcontents] at hv
    by_cases hd : d = c
    · subst hd
      exact absurd hv (h.valued.not_forced hnew rfl v)
    · rw [he.stage d hd]
      exact h.valued.forced d v hv
  · intro d hc
    rw [hcontents]
    exact h.valued.agrees d hc
  · intro d hc hs
    by_cases hd : d = c
    · rw [hd, hstage] at hs
      cases hs
    · rw [he.stage d hd] at hs
      exact h.valued.failed d hc hs
  · intro f hf hc hbad
    rcases List.mem_cons.1 hf with rfl | hf
    · cases hbad
    · exact h.valued.lost f hf hc hbad

theorem Inv.settle (h : g.Inv clean w (f :: frames)) (hclean : ∀ c, clean' c → clean c)
    (he : World.Edited f.cell w w') (hstage : w'.stage f.cell = some status)
    (hidle : status.isRunning = false)
    (hpending : status.isTerminal = true → ∀ x ∈ w'.ledger.pending, x.2.rule ≠ f.cell)
    (hfilled : status = .success → (w'.content f.cell).isForced = true)
    (hsoft : ∀ v, w'.content f.cell = .soft v → f.cell.family = .standard .constant)
    (hforced : ∀ v, w'.content f.cell = .forced v →
      status = .success ∨ status = .fail ∧ v = f.cell.family.sentinel)
    (hexact : clean' f.cell → ∀ v, (w'.content f.cell).value? = some v → v = g.value f.cell)
    (hfailed : clean' f.cell → status = .fail → g.Lost f.cell) : g.Inv clean' w' frames := by
  have hother : ∀ e ∈ frames, e.cell ≠ f.cell := fun e => h.stacked.ne_of_mem_tail
  refine ⟨h.wired.edit he ?_, ⟨?_, ?_, ?_, ?_, ?_, h.stacked.linked.tail⟩,
    ⟨?_, ?_, ?_, ?_, ?_, ?_⟩⟩
  · intro x hx hrule status' hs
    rw [hstage] at hs
    cases hs
    cases ht : status.isTerminal with
    | false => rfl
    | true => exact absurd hrule (hpending ht x hx)
  · intro e hmem
    rw [he.resolver]
    exact h.stacked.held e (List.mem_cons_of_mem _ hmem)
  · intro e hmem
    rw [he.stage _ (hother e hmem)]
    exact h.stacked.running e (List.mem_cons_of_mem _ hmem)
  · intro d status' hs hrun
    by_cases hd : d = f.cell
    · rw [hd, hstage] at hs
      cases hs
      rw [hidle] at hrun
      cases hrun
    · rw [he.stage d hd] at hs
      obtain ⟨e, hmem, heq⟩ := h.stacked.on_stack d status' hs hrun
      rcases List.mem_cons.1 hmem with rfl | hmem
      · exact absurd heq.symm hd
      · exact ⟨e, hmem, heq⟩
  · have hnodup := h.stacked.nodup
    rw [List.map_cons, List.nodup_cons] at hnodup
    exact hnodup.2
  · exact fun e hmem => h.stacked.fills e (List.mem_cons_of_mem _ hmem)
  · intro d hs
    by_cases hd : d = f.cell
    · subst hd
      rw [hstage] at hs
      exact hfilled (Option.some.inj hs)
    · rw [he.stage d hd] at hs
      rw [he.content d hd]
      exact h.valued.filled d hs
  · intro d v hv
    by_cases hd : d = f.cell
    · subst hd
      exact hsoft v hv
    · rw [he.content d hd] at hv
      exact h.valued.soft d v hv
  · intro d v hv
    by_cases hd : d = f.cell
    · subst hd
      rw [hstage, Option.some_inj, Option.some_inj]
      exact hforced v hv
    · rw [he.content d hd] at hv
      rw [he.stage d hd]
      exact h.valued.forced d v hv
  · intro d hc v hv
    by_cases hd : d = f.cell
    · subst hd
      exact hexact hc v hv
    · rw [he.content d hd] at hv
      exact h.valued.agrees d (hclean d hc) v hv
  · intro d hc hs
    by_cases hd : d = f.cell
    · subst hd
      rw [hstage] at hs
      exact hfailed hc (Option.some.inj hs)
    · rw [he.stage d hd] at hs
      exact h.valued.failed d (hclean d hc) hs
  · exact fun e hmem hc => h.valued.lost e (List.mem_cons_of_mem _ hmem) (hclean e.cell hc)

theorem Inv.not_forced (h : g.Inv clean w frames) (hf : f ∈ frames) (v : f.cell.family.Value) :
    w.content f.cell ≠ .forced v := by
  obtain ⟨status, hs, hrun, -⟩ := h.stacked.running f hf
  refine h.valued.not_forced hs ?_ v
  cases status with
  | success | fail => cases hrun
  | _ => rfl

theorem exists_unit_of_mem {frames' : List (Frame Attribute.schema)}
    (hunits : frames'.map Frame.unit = frames.map Frame.unit) (hf : f ∈ frames') :
    ∃ e ∈ frames, e.unit = f.unit := by
  have hmem : f.unit ∈ frames.map Frame.unit := by
    rw [← hunits]
    exact List.mem_map_of_mem hf
  exact List.mem_map.1 hmem

/-- The units on the stack stay, and one of them goes on in another way. -/
theorem Inv.restack {frames' : List (Frame Attribute.schema)} (h : g.Inv clean w frames)
    (he : World.Edited c w w') (hcontent : w'.content c = w.content c)
    (hstage : w'.stage c = some status) (hrun : status.isRunning = true)
    (hc : ∃ f ∈ frames, f.cell = c)
    (hunits : frames'.map Frame.unit = frames.map Frame.unit)
    (hrunning : ∀ f ∈ frames', ∃ status, w'.stage f.cell = some status ∧
      status.isRunning = true ∧ (status = .runningWillFail ↔ f.doomed = true))
    (hfills : ∀ f ∈ frames', f.fills = []) (hlinked : g.Linked frames')
    (hlost : ∀ f ∈ frames', clean f.cell → (f.head.isSome || f.doomed) = true → g.Lost f.cell) :
    g.Inv clean w' frames' := by
  have hcells : frames'.map Frame.cell = frames.map Frame.cell := by
    have hrules := congrArg (List.map WorkUnit.rule) hunits
    rw [List.map_map, List.map_map] at hrules
    exact hrules
  have hback : ∀ d, (∃ f ∈ frames, f.cell = d) → ∃ f ∈ frames', f.cell = d := by
    rintro d ⟨f, hf, rfl⟩
    obtain ⟨e, hmem, heq⟩ := exists_unit_of_mem hunits.symm hf
    exact ⟨e, hmem, congrArg WorkUnit.rule heq⟩
  have hcontents : ∀ d, w'.content d = w.content d := by
    intro d
    by_cases hd : d = c
    · rw [hd, hcontent]
    · exact he.content d hd
  refine ⟨h.wired.edit he ?_, ⟨?_, hrunning, ?_, ?_, hfills, hlinked⟩,
    ⟨?_, ?_, ?_, ?_, ?_, hlost⟩⟩
  · intro x _ _ status' hs
    rw [hstage] at hs
    cases hs
    cases status with
    | new | success | fail => cases hrun
    | _ => rfl
  · intro f hf
    obtain ⟨e, hmem, heq⟩ := exists_unit_of_mem hunits hf
    have hheld := h.stacked.held e hmem
    rw [he.resolver, ← heq, show f.cell = e.cell from (congrArg WorkUnit.rule heq).symm]
    exact hheld
  · intro d status' hs hrun'
    by_cases hd : d = c
    · rw [hd]
      exact hback c hc
    · rw [he.stage d hd] at hs
      exact hback d (h.stacked.on_stack d status' hs hrun')
  · rw [hcells]
    exact h.stacked.nodup
  · intro d hs
    by_cases hd : d = c
    · rw [hd, hstage] at hs
      cases hs
      cases hrun
    · rw [he.stage d hd] at hs
      rw [hcontents]
      exact h.valued.filled d hs
  · intro d
    rw [hcontents]
    exact h.valued.soft d
  · intro d v hv
    rw [hcontents] at hv
    by_cases hd : d = c
    · obtain ⟨f, hf, rfl⟩ := hc
      subst hd
      exact absurd hv (h.not_forced hf v)
    · rw [he.stage d hd]
      exact h.valued.forced d v hv
  · intro d hcl
    rw [hcontents]
    exact h.valued.agrees d hcl
  · intro d hcl hs
    by_cases hd : d = c
    · rw [hd, hstage] at hs
      cases hs
      cases hrun
    · rw [he.stage d hd] at hs
      exact h.valued.failed d hcl hs

theorem Inv.doom (h : g.Inv clean w (f :: frames)) (he : World.Edited f.cell w w')
    (hcontent : w'.content f.cell = w.content f.cell)
    (hstage : w'.stage f.cell = some .runningWillFail) (hlost : clean f.cell → g.Lost f.cell) :
    g.Inv clean w' ({ f with doomed := true } :: frames) := by
  apply h.restack he hcontent hstage rfl ⟨f, List.mem_cons_self, rfl⟩
  · rfl
  · intro e hmem
    rcases List.mem_cons.1 hmem with rfl | hmem
    · exact ⟨.runningWillFail, hstage, rfl, by simp⟩
    · rw [he.stage _ (h.stacked.ne_of_mem_tail hmem)]
      exact h.stacked.running e (List.mem_cons_of_mem _ hmem)
  · intro e hmem
    rcases List.mem_cons.1 hmem with rfl | hmem
    · exact h.stacked.fills f List.mem_cons_self
    · exact h.stacked.fills e (List.mem_cons_of_mem _ hmem)
  · exact h.stacked.linked.replace rfl rfl
  · intro e hmem hcl hbad
    rcases List.mem_cons.1 hmem with rfl | hmem
    · exact hlost hcl
    · exact h.valued.lost e (List.mem_cons_of_mem _ hmem) hcl hbad

theorem Inv.rejoin {index : Nat} (h : g.Inv clean w (above ++ e :: below))
    (hasks : g.Asks (above ++ e :: below) e.cell) (hindex : below.length = index)
    (hfail : w.stage e.cell ≠ some .runningWillFail) (he : World.Edited e.cell w w')
    (hcontent : w'.content e.cell = w.content e.cell)
    (hstage : w'.stage e.cell = some .runningRecursive) :
    g.Inv clean w' (Frame.joinCycleAbove index (above ++ e :: below)) := by
  rw [Frame.joinCycleAbove_append above e hindex]
  have hlost := h.stacked.linked.lost_of_asked hasks
  have hmem : e ∈ above ++ e :: below := List.mem_append_right _ List.mem_cons_self
  -- Frames above are joined, the others are as they were.
  have hold : ∀ f ∈ above.map (Frame.joinCycle index) ++ e :: below, ∃ f' ∈ above ++ e :: below,
      f.unit = f'.unit ∧ f.doomed = f'.doomed ∧ f.fills = f'.fills ∧ (f = f' ∨ f' ∈ above) := by
    intro f hf
    rcases List.mem_append.1 hf with hf | hf
    · obtain ⟨f', hf', rfl⟩ := List.mem_map.1 hf
      exact ⟨f', List.mem_append_left _ hf', rfl, rfl, rfl, .inr hf'⟩
    · exact ⟨f, List.mem_append_right _ hf, rfl, rfl, rfl, .inl rfl⟩
  apply h.restack he hcontent hstage rfl ⟨e, hmem, rfl⟩
  · rw [List.map_append, List.map_append, List.map_map]
    rfl
  · intro f hf
    obtain ⟨f', hf', hunit, hdoomed, -, -⟩ := hold f hf
    have hcell : f.cell = f'.cell := congrArg WorkUnit.rule hunit
    obtain ⟨status', hs, hrun, hiff⟩ := h.stacked.running f' hf'
    rw [hcell, hdoomed]
    by_cases hd : f'.cell = e.cell
    · have hnot : f'.doomed = false := by
        cases hb : f'.doomed with
        | false => rfl
        | true =>
          rw [hiff.2 hb, hd] at hs
          exact absurd hs hfail
      exact ⟨.runningRecursive, by rw [hd]; exact hstage, rfl, by simp [hnot]⟩
    · rw [he.stage _ hd]
      exact ⟨status', hs, hrun, hiff⟩
  · intro f hf
    obtain ⟨f', hf', -, -, hfills, -⟩ := hold f hf
    rw [hfills]
    exact h.stacked.fills f' hf'
  · exact h.stacked.linked.joinCycle fun f hf => (hlost f hf).1
  · intro f hf hcl hbad
    obtain ⟨f', hf', hunit, -, -, hor⟩ := hold f hf
    have hcell : f.cell = f'.cell := congrArg WorkUnit.rule hunit
    rcases hor with rfl | habove
    · exact h.valued.lost f hf' hcl hbad
    · rw [hcell]
      exact (hlost f' (List.mem_cons_of_mem _ habove)).2

theorem Inv.renew (h : g.Inv clean w frames) (hn : World.Renewed c u w w') (hw : g.Wired w')
    (hoff : ∀ f ∈ frames, f.cell ≠ c) : g.Inv clean w' frames := by
  refine ⟨hw, ⟨?_, ?_, ?_, h.stacked.nodup, h.stacked.fills, h.stacked.linked⟩,
    ⟨?_, ?_, ?_, ?_, ?_, h.valued.lost⟩⟩
  · intro f hf
    rw [hn.resolver (hoff f hf)]
    exact h.stacked.held f hf
  · intro f hf
    rw [h.wired.stage_renew hn (hoff f hf)]
    exact h.stacked.running f hf
  · intro d status hs hrun
    by_cases hd : d = c
    · rw [hd, hn.stage_self] at hs
      cases hs
      cases hrun
    · rw [h.wired.stage_renew hn hd] at hs
      exact h.stacked.on_stack d status hs hrun
  · intro d hs
    by_cases hd : d = c
    · rw [hd, hn.stage_self] at hs
      cases hs
    · rw [h.wired.stage_renew hn hd] at hs
      rw [hn.content hd]
      exact h.valued.filled d hs
  · intro d v hv
    by_cases hd : d = c
    · subst hd
      rw [hn.content_self] at hv
      cases hv
    · rw [hn.content hd] at hv
      exact h.valued.soft d v hv
  · intro d v hv
    by_cases hd : d = c
    · subst hd
      rw [hn.content_self] at hv
      cases hv
    · rw [hn.content hd] at hv
      rw [h.wired.stage_renew hn hd]
      exact h.valued.forced d v hv
  · intro d hcl v hv
    by_cases hd : d = c
    · subst hd
      rw [hn.content_self] at hv
      cases hv
    · rw [hn.content hd] at hv
      exact h.valued.agrees d hcl v hv
  · intro d hcl hs
    by_cases hd : d = c
    · rw [hd, hn.stage_self] at hs
      cases hs
    · rw [h.wired.stage_renew hn hd] at hs
      exact h.valued.failed d hcl hs

end Scene

end Attribution
