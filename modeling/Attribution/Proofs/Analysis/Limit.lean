import Attribution.Proofs.Analysis.Session
/-!
# Reads under a depth limit

A read for which the stack gets too deep ends with an error, and the units on the
stack end as failed. They are cut off: their cells are read as sentinels from then on,
and whatever relies on them is spoiled. All other cells are as if there were no limit:
a read that comes to a value comes to the one that is found where there is room
(`Stmt.limited_read_ends`).
-/

namespace Attribution

open Engine

def Operation.IsGet : Operation → Prop
  | .get _ _ => True
  | _ => False

namespace Scene

variable {g : Scene} {part : g.Part} {w w' : World Attribute.schema}
  {frames : List (Frame Attribute.schema)} {c d : CellKey} {u : WorkUnit CellKey} {a : Attribute}
  {id : NodeId}

/-! ## Cells that are intact -/

def intact (g : Scene) (w : World Attribute.schema) : g.Part :=
  (Part.all True).spared w

theorem intact_iff : g.intact w c ↔ ¬g.Spoiled w c :=
  and_iff_right trivial

theorem Spoiled.of_relies (h : g.Spoiled w d) (hrelies : g.Relies c d) : g.Spoiled w c := by
  obtain ⟨e, hde, hcut⟩ := h
  exact ⟨e, hrelies.trans hde, hcut⟩

theorem not_spoiled_start (config : Config) (c : CellKey) :
    ¬g.Spoiled (Analysis.start g.subject config).world c := by
  rintro ⟨d, -, hstage, -⟩
  cases hstage

theorem Inv.intact_of_ahead (h : g.Inv (g.intact w) w' []) (ha : w.Ahead w') :
    g.Inv (g.intact w') w' [] :=
  h.mono fun _ => Part.spared_of_ahead ha

/-- Where the cells that were intact are as they should be, no more are spoiled. -/
theorem Inv.spoiled_before (h : g.Inv (g.intact w) w' []) (hc : g.Spoiled w' c) :
    g.Spoiled w c := by
  obtain ⟨d, hrelies, hfail, hlost⟩ := hc
  by_contra hspoiled
  have hd : g.intact w d := intact_iff.2 fun hd => hspoiled (hd.of_relies hrelies)
  exact hlost (h.valued.failed d hd hfail)

/-- What an action leaves intact, which is everything that was, unless it ends with an
error. -/
theorem Yields.intact {β : Type}
    {Q : β → World Attribute.schema → List (Frame Attribute.schema) → Prop}
    {result : Except Error β} (h : g.Yields (g.intact w) w [] Q result w' frames) :
    g.Inv (g.intact w') w' [] ∧
      ∀ b, result = .ok b → Q b w' frames ∧ ∀ c, g.Spoiled w' c → g.Spoiled w c := by
  cases result with
  | ok b =>
    obtain ⟨hinv, ho, hQ⟩ := h
    obtain rfl := ho.nil
    refine ⟨hinv.intact_of_ahead ho.ahead, ?_⟩
    rintro _ ⟨⟩
    exact ⟨hQ, fun _ => hinv.spoiled_before⟩
  | error x =>
    obtain ⟨-, hinv, ho⟩ := h
    obtain rfl := ho.nil
    exact ⟨hinv.mono fun _ hc => ⟨Part.spared_of_ahead ho.ahead hc, hc.2⟩, nofun⟩

/-! ## Cells that are cut off -/

theorem gives_occupy (h : g.Inv part w frames) (hu : w.resolver? c = some u) :
    Gives g.model g.watch Analysis.home w frames (g.subject.occupy c).run
      fun result w' frames' => result = .ok () ∧ w' = w ∧ frames' = frames := by
  have hserves := h.wired.serves c u hu
  obtain ⟨n, hn⟩ := exists_node hserves.node_lt
  unfold Subject.occupy
  rw [hn, if_neg (by simp)]
  apply gives_bind
  apply gives_env
  apply gives_pure
  unfold ExceptT.bindCont
  dsimp only
  rw [show Slots.family? w.env c.family.attr c.node = some c.family from hserves.slot]
  dsimp only
  rw [if_pos rfl]
  exact gives_pure ⟨rfl, rfl, rfl⟩

theorem Inv.eq_sentinel (h : g.Inv part w frames) (hs : w.stage c = some .fail)
    {v : c.family.Value} (hv : w.content c = .forced v) : v = c.family.sentinel := by
  rcases h.valued.forced c v hv with hs' | ⟨-, hv⟩
  · cases hs.symm.trans hs'
  · exact hv

/-- An attribute whose unit has failed is read as its sentinel, and no room is needed for
that. -/
theorem gives_read_failed (h : g.Inv part w []) (hs : w.stage ⟨.standard a, id⟩ = some .fail) :
    Gives g.model g.watch Analysis.home w [] (g.subject.read a id).run
      fun result _ _ => result = .ok a.sentinel := by
  obtain ⟨u, hu, hstatus⟩ := World.exists_of_stage hs
  have hasks : g.Asks [] ⟨.standard a, id⟩ := nofun
  apply gives_bind
  apply gives_bind
  apply (gives_occupy h hu).mono
  rintro _ w _ ⟨rfl, rfl, rfl⟩
  apply gives_probe hasks hu
  · intro v hv
    rw [h.eq_sentinel hs hv]
    exact gives_pure (gives_pure rfl)
  · intro hforced
    apply answers_fail (h.enters hu hasks) rfl hstatus
    refine ⟨h.wired.hooks _, fun origin => ?_⟩
    have hread : (w.finishRead origin ⟨.standard a, id⟩ u.label .fail).2 =
        .ok (.failed a.sentinel) := by
      unfold World.finishRead
      cases hv : (w.cell ⟨.standard a, id⟩).value with
      | forced v =>
        rw [hv] at hforced
        cases hforced
      | unset | soft v => rfl
    rw [hread]
    exact gives_pure (gives_pure rfl)

/-! ## Reads from outside -/

theorem gives_read_missing (hid : g.outline.size ≤ id) :
    Gives g.model g.watch Analysis.home w frames (g.subject.read a id).run
      fun result w' _ => result = .error (.unknownNode id) ∧ w' = w := by
  have hnone : g.subject.tree.node? id = none := by
    cases hn : g.subject.tree.node? id with
    | none => rfl
    | some n => exact absurd (node_lt_of_node? hn) (Nat.not_lt.2 hid)
  unfold Subject.read Subject.probe Subject.probeCell Subject.occupy
  rw [hnone]
  exact gives_pure ⟨rfl, rfl⟩

theorem intact_of_session (hs : g.outline.Shaped) {config : Config}
    (hdepth : config.limits.maxDepth = g.depth)
    (h : Session g.subject config (fun op _ => op.IsGet) w) : g.Inv (g.intact w) w [] := by
  have hsame : ∀ {w w' : World Attribute.schema}, World.Same w w' → g.Inv (g.intact w) w [] →
      g.Inv (g.intact w') w' [] := fun hs hinv => (hinv.same hs).intact_of_ahead hs.ahead
  refine (Session.preserves (I := fun w => g.Inv (g.intact w) w []) (inv_start config hdepth)
    (fun w n => hsame (World.same_of_eq rfl rfl rfl))
    (fun w origin event => hsame (World.same_note w origin event)) ?_ ?_ h).1
  · intro w w' op evaluator worker e result hinv hl hgave hop
    cases op with
    | get a id =>
      by_cases hid : id < g.outline.size
      · have hread := runs_read_part (a := a) hs hinv fun _ => ⟨rfl, hid⟩
        exact (Yields.intact (result_of_leads (.get a id) hread hl hgave)).1
      · rw [(result_of_leads (.get a id) (gives_read_missing (Nat.not_lt.1 hid)) hl hgave).2]
        exact hinv
    | create | probe | reset | attempt | diagnose => exact hop.elim
  · intro c hc
    exact (hc (.ready c.family.fallback)).elim

theorem ends_of_gives
    {P : Except Error a.Value → World Attribute.schema → List (Frame Attribute.schema) → Prop}
    (h : Gives g.model g.watch Analysis.home w [] (g.subject.read a id).run P)
    (evaluator : EvaluatorId) (worker : Option Nat) :
    Ends g.model (fun w' e => ∃ result, e.Gave result ∧ P result w' e.frames) w
      ((Operation.get a id).evaluator g.subject evaluator worker) := by
  apply (h.watched (e := (Operation.get a id).evaluator g.subject evaluator worker) rfl rfl rfl
    rfl).ends.mono
  rintro w' e ⟨result, hresult, he⟩
  exact ⟨result, by rw [he]; exact ⟨rfl, rfl⟩, hresult⟩

/-- A read of an attribute of the tree. Only a lack of room spoils anything. -/
theorem ends_read (hs : g.outline.Shaped) (hloose : ¬g.loose) (h : g.Inv (g.intact w) w [])
    (hid : id < g.outline.size) (evaluator : EvaluatorId) (worker : Option Nat) :
    Ends g.model (fun w' e => ∃ result, e.Gave result ∧
        (∀ v, result = .ok v → g.intact w ⟨.standard a, id⟩ → v = g.value ⟨.standard a, id⟩) ∧
        ((∀ label limit, result ≠ .error (.depthExceeded label limit)) →
          ∀ c, g.Spoiled w' c → g.Spoiled w c) ∧
        (w.stage ⟨.standard a, id⟩ = some .fail → result = .ok a.sentinel))
      w ((Operation.get a id).evaluator g.subject evaluator worker) := by
  have hends := ends_of_gives (runs_read_part (a := a) hs h fun _ => ⟨rfl, hid⟩) evaluator worker
  have hfailed : Ends g.model (fun _ e => ∃ result, e.Gave result ∧
      (w.stage ⟨.standard a, id⟩ = some .fail → result = .ok a.sentinel)) w
      ((Operation.get a id).evaluator g.subject evaluator worker) := by
    by_cases hfail : w.stage ⟨.standard a, id⟩ = some .fail
    · exact (ends_of_gives (gives_read_failed h hfail) evaluator worker).mono
        fun _ _ ⟨result, hgave, hresult⟩ => ⟨result, hgave, fun _ => hresult⟩
    · exact hends.mono fun _ _ ⟨result, hgave, _⟩ =>
        ⟨result, hgave, fun hs => absurd hs hfail⟩
  apply (hends.and hfailed (fun w _ ⟨_, hgave, _⟩ pick => hgave.step_eq_none _ pick w)
    fun w _ ⟨_, hgave, _⟩ pick => hgave.step_eq_none _ pick w).mono
  rintro w' e ⟨⟨result, hgave, hresult⟩, result', hgave', hsentinel⟩
  have heq := hgave.focus.symm.trans hgave'.focus
  cases heq
  refine ⟨result, hgave, fun v hv => (hresult.intact.2 v hv).1.2.1, fun hdeep => ?_, hsentinel⟩
  cases result with
  | ok v => exact (hresult.intact.2 v rfl).2
  | error x =>
    obtain ⟨label, rfl, -⟩ := hresult.1.resolve_left hloose
    exact absurd rfl (hdeep label g.depth)

end Scene

/-! ## Programs -/

namespace Stmt

variable (program : Stmt) (rules : RuleProvider) (w : World Attribute.schema)

/-- The unit of the attribute has failed, although its value is not the sentinel. -/
def CutOff (c : CellKey) : Prop :=
  (program.scene rules {} False).CutOff w c

/-- The attribute relies on one that is cut off. -/
def Spoiled (c : CellKey) : Prop :=
  (program.scene rules {} False).Spoiled w c

/-- The end of a read of an attribute that started with the world `w`. -/
structure ReadEnds (a : Attribute) (id : NodeId) (result : Except Error a.Value)
    (w' : World Attribute.schema) : Prop where
  /-- A value is the one that is found where there is room. -/
  found : ∀ v, result = .ok v →
    program.Spoiled rules w ⟨.standard a, id⟩ ∨ program.Finds rules a id v
  /-- Only a read for which the stack gets too deep spoils anything. -/
  sparing : (∀ label limit, result ≠ .error (.depthExceeded label limit)) →
    ∀ c, program.Spoiled rules w' c → program.Spoiled rules w c
  /-- What is cut off is read as a sentinel, which is wrong. -/
  cutOff : program.CutOff rules w ⟨.standard a, id⟩ →
    result = .ok a.sentinel ∧ ¬program.Finds rules a id a.sentinel

/-- **A depth limit does not change what it does not spoil.** Whatever has been read before,
and with whatever errors, a read of an attribute comes to an end. If that is not an error,
it is the value that is found where there is room, unless the attribute relies on one that
was cut off when the stack got too deep. Nothing is spoiled in the beginning, nor by any
other read. -/
theorem limited_read_ends (program : Stmt) (rules : Rules) (config : Config) :
    (∀ c, ¬program.Spoiled rules (Analysis.start (program.subject rules) config).world c) ∧
    ∀ w, Session (program.subject rules) config (fun op _ => op.IsGet) w →
      ∀ (a : Attribute) (id : NodeId) (evaluator : EvaluatorId) (worker : Option Nat),
        Ends (program.subject rules).model
          (fun w' e => ∃ result, e.Gave result ∧ program.ReadEnds rules w a id result w')
          w ((Operation.get a id).evaluator (program.subject rules) evaluator worker) := by
  let g := program.scene rules config False
  have hs : g.outline.Shaped := program.shaped_outline 0
  refine ⟨Scene.not_spoiled_start config, fun w h a id evaluator worker => ?_⟩
  have hinv : g.Inv (g.intact w) w [] := Scene.intact_of_session hs rfl h
  by_cases hid : id < g.outline.size
  · have hsize : id < (Tree.ofProgram program).size := by
      rw [program.size_scene rules config False]
      exact hid
    apply (Scene.ends_read hs not_false hinv hid evaluator worker).mono
    rintro w' e ⟨result, hgave, hvalue, hsparing, hsentinel⟩
    refine ⟨result, hgave, fun v hv => ?_, hsparing,
      fun hcut => ⟨hsentinel hcut.1, fun hfinds => ?_⟩⟩
    · by_cases hc : g.Spoiled w ⟨.standard a, id⟩
      · exact .inl hc
      · rw [hvalue v hv (Scene.intact_iff.2 hc)]
        exact .inr (program.finds_reference rules a hsize)
    · exact hcut.2 ((finds_iff hsize).1 hfinds)
  · -- There is no such node, and nothing happens.
    apply (Scene.ends_of_gives (Scene.gives_read_missing (Nat.not_lt.1 hid)) evaluator worker).mono
    rintro w' e ⟨result, hgave, rfl, rfl⟩
    refine ⟨_, hgave, nofun, fun _ _ hc => hc, fun hcut => ?_⟩
    obtain ⟨u, hu, -⟩ := World.exists_of_stage hcut.1
    exact absurd (hinv.wired.serves _ u hu).node_lt hid

def returning : Stmt :=
  .block [.returns none]

def shallow : Config :=
  { limits := { maxDepth := 1 } }

/-- The world after an attempt to find out whether the block completes, which takes two
units. -/
def blockCutOff : World Attribute.schema :=
  (((Operation.get .completes 0).evaluator (returning.subject ({} : Rules)) 0 none).run
    (returning.subject ({} : Rules)).model 18
    (Analysis.start (returning.subject ({} : Rules)) shallow).world).1

theorem exists_leads_blockCutOff : ∃ e,
    Leads (returning.subject ({} : Rules)).model
      (Analysis.start (returning.subject ({} : Rules)) shallow).world
      ((Operation.get .completes 0).evaluator (returning.subject ({} : Rules)) 0 none)
      blockCutOff e ∧
    e.Gave (.error (.depthExceeded "completes#1" 1)) :=
  ⟨_, Evaluator.leads_run _ 18 _ _, rfl, rfl⟩

/-- The statement does not rely on its block. Whether it completes is found in spite of the
error. -/
theorem limited_read_ends_returning : ∃ w e,
    Session (returning.subject ({} : Rules)) shallow (fun op _ => op.IsGet) blockCutOff ∧
    Leads (returning.subject ({} : Rules)).model blockCutOff
      ((Operation.get .completes 1).evaluator (returning.subject ({} : Rules)) 1 none) w e ∧
    e.Gave (.ok false) ∧ returning.Finds ({} : Rules) .completes 1 false := by
  obtain ⟨e, hcut, herror⟩ := exists_leads_blockCutOff
  have hw : Session (returning.subject ({} : Rules)) shallow (fun op _ => op.IsGet) blockCutOff :=
    .operate .start (.get .completes 0) 0 none hcut herror trivial
  obtain ⟨w, e', hl, hgave⟩ : ∃ w e', Leads (returning.subject ({} : Rules)).model blockCutOff
      ((Operation.get .completes 1).evaluator (returning.subject ({} : Rules)) 1 none) w e' ∧
      e'.Gave (.ok false) :=
    ⟨_, _, Evaluator.leads_run _ 11 _ _, rfl, rfl⟩
  obtain ⟨result, hgave', hresult⟩ := (((limited_read_ends returning {} shallow).2 _ hw .completes 1
    1 none).of_leads (fun w _ ⟨_, hgave, _⟩ pick => hgave.step_eq_none _ pick w) hl).result
      (hgave.step_eq_none _ 0 w)
  have heq := hgave.focus.symm.trans hgave'.focus
  cases heq
  refine ⟨w, e', hw, hl, hgave, (hresult.found false rfl).resolve_left ?_⟩
  rintro ⟨d, hrelies, hstage, -⟩
  rcases hrelies.cases_head with rfl | ⟨c, hread, -⟩
  · cases hstage
  · cases hread

/-- The block itself is found to complete when it is read once more, which it does not. -/
theorem limited_read_differs : ∃ e w e',
    Leads (returning.subject ({} : Rules)).model
      (Analysis.start (returning.subject ({} : Rules)) shallow).world
      ((Operation.get .completes 0).evaluator (returning.subject ({} : Rules)) 0 none)
      blockCutOff e ∧
    e.Gave (.error (.depthExceeded "completes#1" 1)) ∧
    Leads (returning.subject ({} : Rules)).model blockCutOff
      ((Operation.get .completes 0).evaluator (returning.subject ({} : Rules)) 1 none) w e' ∧
    e'.Gave (.ok true) ∧ returning.Finds ({} : Rules) .completes 0 false := by
  obtain ⟨e, hcut, herror⟩ := exists_leads_blockCutOff
  exact ⟨e, _, _, hcut, herror, Evaluator.leads_run _ 6 _ _, ⟨rfl, rfl⟩,
    (finds_iff (by decide)).2 (by decide)⟩

end Stmt

end Attribution
