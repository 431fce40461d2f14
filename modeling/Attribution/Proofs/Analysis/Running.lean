import Attribution.Proofs.Analysis.Books
/-!
# Actions of an analysis

`Runs` specifies an action of an analysis: it comes to an end, keeps the
invariant, takes no resolver away and undoes nothing that has ended. If it ends
with an error, that is one that cannot be helped (`Excused`), and cells are no
longer clean that the error has spoiled.
-/

namespace Attribution

open Engine

namespace Engine.World

/-- Cells keep their resolvers, units that have ended stay as they are, and those that are
going to fail do not succeed. -/
structure Ahead (w w' : World Attribute.schema) : Prop where
  resolver : ∀ c u, w.resolver? c = some u → w'.resolver? c = some u
  settled : ∀ c status, w.stage c = some status → status.isTerminal = true →
    w'.stage c = some status
  verdict : ∀ c b, (w.stage c).bind Status.verdict? = some b →
    (w'.stage c).bind Status.verdict? = some b

variable {w w' w'' : World Attribute.schema} {c : CellKey}

theorem Ahead.refl (w : World Attribute.schema) : Ahead w w :=
  ⟨fun _ _ hu => hu, fun _ _ hs _ => hs, fun _ _ hv => hv⟩

theorem Ahead.trans (h : Ahead w w') (h' : Ahead w' w'') : Ahead w w'' :=
  ⟨fun c u hu => h'.resolver c u (h.resolver c u hu),
    fun c status hs ht => h'.settled c status (h.settled c status hs ht) ht,
    fun c b hv => h'.verdict c b (h.verdict c b hv)⟩

theorem Ahead.ended (h : Ahead w w') (hc : w.ended c = true) : w'.ended c = true := by
  obtain ⟨status, hs, ht⟩ := exists_of_ended hc
  rw [ended_of_stage (h.settled c status hs ht)]
  exact ht

theorem Ahead.verdict? (h : Ahead w w') {id : NodeId} {b : Bool} (hid : w.verdict? id = some b) :
    w'.verdict? id = some b :=
  h.verdict _ b hid

theorem Edited.ahead (h : Edited c w w')
    (hc : ∀ status, w.stage c = some status → status.isTerminal = true →
      w'.stage c = some status)
    (hverdict : ∀ b, (w.stage c).bind Status.verdict? = some b →
      (w'.stage c).bind Status.verdict? = some b) : Ahead w w' := by
  refine ⟨fun d u hu => ?_, fun d status hs ht => ?_, fun d b hv => ?_⟩
  · rw [h.resolver]
    exact hu
  · by_cases hd : d = c
    · subst hd
      exact hc status hs ht
    · rw [h.stage d hd]
      exact hs
  · by_cases hd : d = c
    · subst hd
      exact hverdict b hv
    · rw [h.stage d hd]
      exact hv

theorem Edited.ahead_of_stage (h : Edited c w w') (hstage : w'.stage c = w.stage c) :
    Ahead w w' := by
  apply h.ahead
  · intro status hs _
    rw [hstage]
    exact hs
  · intro b hv
    rw [hstage]
    exact hv

theorem Edited.ahead_of_new (h : Edited c w w') (hnew : w.stage c = some .new) : Ahead w w' := by
  apply h.ahead
  · intro status hs ht
    rw [hnew] at hs
    cases hs
    cases ht
  · intro b hb
    rw [hnew] at hb
    cases hb

theorem Same.ahead (h : Same w w') : Ahead w w' :=
  (h.edited ⟨.standard .constant, 0⟩).ahead_of_stage (h.stage _)

end Engine.World

namespace Scene

variable (g : Scene) {β γ : Type}

def subject : Subject :=
  g.outline.subject g.rules

def model : Model Attribute.schema :=
  g.subject.model

/-- What is to be seen along a run: nobody asks for a cell that it may not ask for, and
only constants have runs that are not final. -/
def watch : Watch Attribute.schema where
  reads _ frames c := g.Asks frames c
  enters w frames u := ∃ c, g.Inv False w frames ∧ w.resolver? c = some u ∧ g.Asks frames c
  leaves w f result := f.cell.family ≠ .standard .constant →
    (f.outcome result).2 ≠ .provisional ∧ ∀ v, w.content f.cell ≠ .soft v

/-- An error that may come up: the stack is too deep, which it cannot be when
the limit is as large as the number of slots. -/
def Excused (x : Error) : Prop :=
  g.loose ∨ ∃ label, x = .depthExceeded label g.depth ∧ g.depth < 8 * g.outline.size

/-- What has become of a world and a stack. -/
structure Onward (w : World Attribute.schema) (frames : List (Frame Attribute.schema))
    (w' : World Attribute.schema) (frames' : List (Frame Attribute.schema)) : Prop where
  ahead : w.Ahead w'
  units : frames'.map Frame.unit = frames.map Frame.unit

/-- The end of code that started with the world `w` and the stack `frames`. -/
def Yields (clean : g.Part) (w : World Attribute.schema) (frames : List (Frame Attribute.schema))
    (Q : β → World Attribute.schema → List (Frame Attribute.schema) → Prop) :
    Except Error β → World Attribute.schema → List (Frame Attribute.schema) → Prop
  | .ok b, w', frames' => g.Inv clean w' frames' ∧ Onward w frames w' frames' ∧ Q b w' frames'
  | .error x, w', frames' =>
    g.Excused x ∧ g.Inv (clean.spared w') w' frames' ∧ Onward w frames w' frames'

def Runs (clean : g.Part) (w : World Attribute.schema) (frames : List (Frame Attribute.schema))
    (x : Eval β) (Q : β → World Attribute.schema → List (Frame Attribute.schema) → Prop) : Prop :=
  Gives g.model g.watch Analysis.home w frames x.run (g.Yields clean w frames Q)

variable {g} {clean : g.Part} {w w' w'' : World Attribute.schema}
  {frames frames' frames'' : List (Frame Attribute.schema)} {c : CellKey}
  {Q : β → World Attribute.schema → List (Frame Attribute.schema) → Prop}
  {R : γ → World Attribute.schema → List (Frame Attribute.schema) → Prop}

theorem CutOff.ahead (h : g.CutOff w c) (ha : w.Ahead w') : g.CutOff w' c :=
  ⟨ha.settled c .fail h.1 rfl, h.2⟩

theorem Spoiled.ahead (h : g.Spoiled w c) (ha : w.Ahead w') : g.Spoiled w' c := by
  obtain ⟨d, hrelies, hcut⟩ := h
  exact ⟨d, hrelies, hcut.ahead ha⟩

theorem Part.spared_of_ahead (ha : w.Ahead w') (h : clean.spared w' c) : clean.spared w c :=
  ⟨h.1, fun hspoiled => h.2 (hspoiled.ahead ha)⟩

theorem Onward.refl (w : World Attribute.schema) (frames : List (Frame Attribute.schema)) :
    Onward w frames w frames :=
  ⟨.refl w, rfl⟩

theorem Onward.trans (h : Onward w frames w' frames') (h' : Onward w' frames' w'' frames'') :
    Onward w frames w'' frames'' :=
  ⟨h.ahead.trans h'.ahead, h'.units.trans h.units⟩

theorem Onward.length (h : Onward w frames w' frames') : frames'.length = frames.length := by
  have hlen := congrArg List.length h.units
  rw [List.length_map, List.length_map] at hlen
  exact hlen

theorem Onward.asks (h : Onward w frames w' frames') (hasks : g.Asks frames c) :
    g.Asks frames' c := by
  intro f rest hf
  have hunits := h.units
  rw [hf, List.map_cons] at hunits
  obtain ⟨e, rest', he, hunit, -⟩ := List.map_eq_cons_iff.1 hunits.symm
  have hcell : f.cell = e.cell := congrArg WorkUnit.rule hunit.symm
  rw [hcell]
  exact hasks e rest' he

theorem Onward.tail {f f' : Frame Attribute.schema}
    (h : Onward w (f :: frames) w' (f' :: frames')) :
    Onward w frames w' frames' :=
  ⟨h.ahead, (List.cons.inj h.units).2⟩

theorem Yields.onward {result : Except Error β}
    (h : g.Yields clean w' frames' Q result w'' frames'')
    (ho : Onward w frames w' frames') : g.Yields clean w frames Q result w'' frames'' := by
  cases result with
  | ok b => exact ⟨h.1, ho.trans h.2.1, h.2.2⟩
  | error x => exact ⟨h.1, h.2.1, ho.trans h.2.2⟩

/-! ## Rules -/

theorem runs_pure {b : β} (h : g.Inv clean w frames) (hQ : Q b w frames) :
    g.Runs clean w frames (pure b) Q :=
  gives_pure ⟨h, .refl w frames, hQ⟩

theorem runs_throw {x : Error} (h : g.Inv clean w frames) (hx : g.Excused x) :
    g.Runs clean w frames (throw x) Q :=
  gives_pure ⟨hx, h.mono fun _ hc => hc.1, .refl w frames⟩

theorem gives_run_bind {x : Eval β} {k : β → Eval γ}
    {P : Except Error γ → World Attribute.schema → List (Frame Attribute.schema) → Prop}
    (hx : g.Runs clean w frames x Q)
    (hok : ∀ b w' frames', g.Inv clean w' frames' → Onward w frames w' frames' →
      Q b w' frames' → Gives g.model g.watch Analysis.home w' frames' (k b).run P)
    (herror : ∀ e w' frames', g.Excused e → g.Inv (clean.spared w') w' frames' →
      Onward w frames w' frames' → P (.error e) w' frames') :
    Gives g.model g.watch Analysis.home w frames (x >>= k).run P := by
  apply gives_bind
  apply Gives.mono hx
  intro result w' frames' hresult
  cases result with
  | ok b => exact hok b w' frames' hresult.1 hresult.2.1 hresult.2.2
  | error e => exact gives_pure (herror e w' frames' hresult.1 hresult.2.1 hresult.2.2)

theorem runs_bind {x : Eval β} {k : β → Eval γ} (hx : g.Runs clean w frames x Q)
    (hk : ∀ b w' frames', g.Inv clean w' frames' → Onward w frames w' frames' →
      Q b w' frames' → g.Runs clean w' frames' (k b) R) :
    g.Runs clean w frames (x >>= k) R := by
  apply gives_run_bind hx
  · intro b w' frames' h ho hQ
    apply Gives.mono (hk b w' frames' h ho hQ)
    intro result w'' frames'' hresult
    exact hresult.onward ho
  · exact fun e w' frames' he h ho => ⟨he, h, ho⟩

theorem Runs.mono {x : Eval β}
    {Q' : β → World Attribute.schema → List (Frame Attribute.schema) → Prop}
    (h : g.Runs clean w frames x Q)
    (hQ : ∀ b w' frames', Onward w frames w' frames' → Q b w' frames' → Q' b w' frames') :
    g.Runs clean w frames x Q' := by
  apply Gives.mono h
  intro result w' frames' hresult
  cases result with
  | ok b => exact ⟨hresult.1, hresult.2.1, hQ _ _ _ hresult.2.1 hresult.2.2⟩
  | error x => exact hresult

theorem runs_map {x : Eval β} {k : β → γ} (hx : g.Runs clean w frames x fun b => R (k b)) :
    g.Runs clean w frames (k <$> x) R :=
  runs_bind hx fun _ _ _ h _ hR => runs_pure h hR

theorem runs_slots (h : g.Inv clean w frames) :
    g.Runs clean w frames Eval.slots fun s w' frames' => s = w.slots ∧ w' = w ∧ frames' = frames :=
  gives_env (gives_pure ⟨h, .refl w frames, rfl, rfl, rfl⟩)

theorem runs_note (h : g.Inv clean w frames) (event : Event) :
    g.Runs clean w frames (Eval.ask (.note event)) fun _ w' frames' =>
      frames' = frames ∧ g.Keeps frames w w' :=
  gives_note fun origin => gives_pure
    ⟨h.same (World.same_note w origin event), ⟨(World.same_note w origin event).ahead, rfl⟩, rfl,
      fun _ _ hb => hb.calm (World.calm_note w origin event)⟩

theorem runs_report (h : g.Inv clean w frames) (d : Diagnostic) :
    g.Runs clean w frames (Eval.ask (.report d)) fun _ w' frames' => frames' = frames ∧
      (d.kind ≠ .cyclicDefinition → ∀ blame told, g.Books w frames blame told →
        g.Books w' frames blame (told + {d})) := by
  apply gives_report
  intro origin
  have hs : World.Same w (w.report g.model origin Analysis.home d) :=
    World.same_report (fun _ _ => rfl) h.wired.session origin d
  exact gives_pure ⟨h.same hs, ⟨hs.ahead, rfl⟩, rfl, fun hd _ _ hb =>
    hb.report h.wired.session hs hd⟩

theorem Stacked.verdict? {f : Frame Attribute.schema} (h : g.Stacked w frames) (hf : f ∈ frames)
    (hconst : f.cell.family = .standard .constant) :
    w.verdict? f.cell.node = if f.doomed then some false else none := by
  obtain ⟨status, hs, hrun, hiff⟩ := h.running f hf
  rw [World.verdict?_of_stage hconst hs]
  cases status with
  | runningWillFail => rw [if_pos (hiff.1 rfl)]; rfl
  | running | runningRecursive =>
    rw [if_neg fun hd => by cases hiff.2 hd]
    rfl
  | new | success | fail => cases hrun

theorem Inv.ahead_doom {f : Frame Attribute.schema} (h : g.Inv clean w (f :: frames))
    (he : World.Edited f.cell w w') (hstage : w'.stage f.cell = some .runningWillFail) :
    w.Ahead w' := by
  obtain ⟨status, hstatus, hrun, -⟩ := h.stacked.running f List.mem_cons_self
  apply he.ahead
  · intro status' hstatus' ht
    rw [h.stacked.not_terminal hstatus'] at ht
    cases ht
  · intro b hb
    rw [hstatus] at hb
    rw [hstage]
    cases status with
    | runningWillFail => exact hb
    | running | runningRecursive => cases hb
    | new | success | fail => cases hrun

/-- The topmost unit fails. Only the first failure is reported. -/
theorem runs_fail {f : Frame Attribute.schema} (h : g.Inv clean w (f :: frames))
    (hlost : clean f.cell → g.Lost f.cell) (d : Diagnostic) :
    g.Runs clean w (f :: frames) (Eval.ask (.fail d)) fun _ w' frames' =>
      (f.cell.family ≠ .standard .constant → f.doomed = false → d.kind ≠ .cyclicDefinition →
        ∀ told, g.Books w (f :: frames) none told → g.Books w' frames' none (told + {d})) ∧
      ∀ id, f.cell = ⟨.standard .constant, id⟩ → d = g.subject.circle id →
        ∀ told, g.Books w (f :: frames) (some id) told →
          g.Books w' frames' none told ∧ w'.verdict? id = some false := by
  apply gives_fail
  · intro hdoomed origin
    have hs := World.same_note w origin (.suppressed f.unit.label d.message)
    refine gives_pure ⟨h.same hs, ⟨hs.ahead, rfl⟩, fun _ hnot => ?_, fun id hf _ told hb => ?_⟩
    · rw [hdoomed] at hnot
      cases hnot
    · have hid := h.stacked.verdict? List.mem_cons_self (by rw [hf])
      rw [hf, hdoomed] at hid
      have hsettled : g.Books w (f :: frames) none told := ⟨hb.kept, hb.circles.settled hid⟩
      exact ⟨hsettled.calm (World.calm_note w origin _), hid⟩
  · intro hdoomed origin
    have hheld := h.stacked.held f List.mem_cons_self
    obtain ⟨he, hstage⟩ := h.wired.restage_setStatus hheld .runningWillFail
    have hdoom := h.doom he rfl hstage hlost
    have hs := World.same_report (m := g.model) (fun _ _ => rfl) hdoom.wired.session origin d
    obtain ⟨status, hstatus, -⟩ := h.stacked.running f List.mem_cons_self
    have hsteady := h.wired.steady_restage he rfl rfl hstatus (h.stacked.not_terminal hstatus)
      hstage rfl
    have ha := h.ahead_doom he hstage
    refine gives_pure ⟨hdoom.same hs, ⟨ha.trans hs.ahead, rfl⟩, fun hf _ hd told hb => ?_,
      fun id hf hd told hb => ?_⟩
    · exact (hb.doom hf he hsteady).report hdoom.wired.session hs hd
    · have hid := h.stacked.verdict? List.mem_cons_self (by rw [hf])
      rw [hf, hdoomed] at hid
      subst hd
      refine ⟨hb.convict hf hid he hstage hsteady hdoom.wired.session hs, ?_⟩
      rw [World.verdict?, hs.stage, ← hf, hstage]
      rfl

/-! ## Cells -/

theorem node_lt_of_node? {id : Nat} {n : Node} (h : g.subject.tree.node? id = some n) :
    id < g.outline.size := by
  obtain ⟨x, hx, rfl, -⟩ := Tree.exists_site_of_node? (fun _ => none) g.subject h
  rw [← Tree.size_ofOutline]
  exact Tree.id_lt_size hx

theorem exists_node {id : Nat} (h : id < g.outline.size) :
    ∃ n, g.subject.tree.node? id = some n := by
  rw [← Tree.size_ofOutline] at h
  obtain ⟨x, hx, rfl⟩ := Tree.exists_site (fun _ => none) g.subject h
  exact ⟨_, Tree.node?_of_mem hx⟩

def Admits (g : Scene) (c : CellKey) : Prop :=
  ¬g.loose → c.family = .standard c.family.attr ∧ c.node < g.outline.size

/-- A cell that may be asked for does not find its slot taken by another. -/
theorem Wired.family_eq (h : g.Wired w) (hloose : ¬g.loose) (hc : g.Admits c) {f : Family}
    (hslot : w.slots.family? c.family.attr c.node = some f) : f = c.family := by
  obtain ⟨hattr, u, hu⟩ := h.taken _ _ f hslot
  have hstandard := (h.serves _ u hu).standard hloose
  rw [show (⟨f, c.node⟩ : CellKey).family.attr = f.attr from rfl, hattr] at hstandard
  exact hstandard.trans (hc hloose).1.symm

theorem Inv.create (h : g.Inv clean w frames) (hnode : c.node < g.outline.size)
    (hc : g.Admits c) (hfree : w.slots.family? c.family.attr c.node = none) {u : WorkUnit CellKey}
    (hn : World.Renewed c u w w') : g.Inv clean w' frames ∧ w.Ahead w' := by
  have hnone := h.wired.unset_of_free hfree
  have hoff : ∀ f ∈ frames, f.cell ≠ c := by
    intro f hf heq
    have hheld := h.stacked.held f hf
    rw [heq, hnone] at hheld
    cases hheld
  have hw : g.Wired w' := by
    apply h.wired.renew hn hnode fun hl => (hc hl).1
    · intro f hf
      rw [hfree] at hf
      cases hf
    · intro x hx heq
      have hres := (h.wired.pending x.1 x.2 hx).1
      rw [heq, hnone] at hres
      cases hres
  have hstage : ∀ d, w.stage d ≠ none → w'.stage d = w.stage d := by
    intro d hs
    apply h.wired.stage_renew hn
    rintro rfl
    rw [World.stage, hnone] at hs
    exact hs rfl
  refine ⟨h.renew hn hw hoff, fun d v hv => ?_, fun d status hs _ => ?_, fun d b hv => ?_⟩
  · have hd : d ≠ c := by
      rintro rfl
      rw [hnone] at hv
      cases hv
    rw [hn.resolver hd]
    exact hv
  · rw [hstage d (by rw [hs]; exact Option.some_ne_none status)]
    exact hs
  · rw [hstage d fun hs => by rw [hs] at hv; cases hv]
    exact hv

theorem runs_occupy (h : g.Inv clean w frames) (hc : g.Admits c) :
    g.Runs clean w frames (g.subject.occupy c) fun _ w' frames' => frames' = frames ∧
      (∃ u, w'.resolver? c = some u) ∧ (g.Wanted c → g.Keeps frames w w') := by
  unfold Subject.occupy
  cases hnode : g.subject.tree.node? c.node with
  | none =>
    rw [if_pos (by rfl)]
    apply runs_bind (runs_throw (Q := fun _ _ _ => False) h ?_) fun _ _ _ _ _ hF => hF.elim
    by_cases hl : g.loose
    · exact .inl hl
    · obtain ⟨n, hn⟩ := exists_node (hc hl).2
      rw [hn] at hnode
      cases hnode
  | some n =>
    have hlt := node_lt_of_node? hnode
    rw [if_neg (by simp)]
    apply runs_bind (runs_slots h)
    rintro _ w frames - - ⟨rfl, rfl, rfl⟩
    cases hslot : w.slots.family? c.family.attr c.node with
    | some f =>
      obtain ⟨-, u, hu⟩ := h.wired.taken _ _ f hslot
      dsimp only
      by_cases hf : f = c.family
      · subst hf
        rw [if_pos rfl]
        exact runs_pure h ⟨rfl, ⟨u, hu⟩, fun _ _ _ hb => hb⟩
      · rw [if_neg hf]
        apply runs_throw h
        by_cases hl : g.loose
        · exact .inl hl
        · exact absurd (h.wired.family_eq hl hc hslot) hf
    | none =>
      have hn := World.renewed_create (c := c) h.wired.session c.label
      obtain ⟨hinv, ha⟩ := h.create hlt hc hslot hn
      exact gives_env (gives_register (gives_resolveWith
        (gives_pure ⟨hinv, ⟨ha, rfl⟩, rfl, ⟨_, hn.resolver_self⟩, fun hc _ _ hb =>
          hb.create h.wired hn (h.wired.unset_of_free hslot) hc⟩)))

/-! ## Reads -/

/-- What is known of a cell whose resolver was asked for. An outcome that is not
final is one of a constant without value, and only seen by constants. -/
def Settles (g : Scene) (clean : g.Part) (c : CellKey) (w : World Attribute.schema)
    (frames : List (Frame Attribute.schema)) : Attempt → Prop
  | .success => w.stage c = some .success
  | .fail => w.stage c = some .fail
  | _ => (∃ f rest, frames = f :: rest ∧ f.cell.family = .standard .constant) ∧
    c.family = .standard .constant ∧ (clean c → g.Lost c)

/-- What the books are after a request for the resolver of a cell. Who has asked for a unit
on the stack is accused. -/
def Booked (g : Scene) (c : CellKey) (w : World Attribute.schema)
    (frames : List (Frame Attribute.schema)) (told : Multiset Diagnostic) : Attempt → Prop
  | .success | .fail => g.Books w frames none told
  | .failing => g.Books w frames none told ∧ g.Traced w.verdict? c.node
  | .provisional =>
    g.Books w frames none told ∧ g.Traced w.verdict? c.node ∧ w.content c ≠ .unset
  | .cycle => w.ended c = false ∧ ∃ f rest, frames = f :: rest ∧
    g.Books w frames (some f.cell.node) told ∧ g.tree.Entangled c.node f.cell.node

structure Recorded (g : Scene) (c : CellKey) (p : Probe c.family.Value)
    (w : World Attribute.schema) (frames : List (Frame Attribute.schema))
    (told : Multiset Diagnostic) : Prop where
  found : p.isCyclic = false → g.Books w frames none told ∧
    (c.family = .standard .constant → g.Traced w.verdict? c.node)
  cyclic : p.isCyclic = true → ∃ f rest, frames = f :: rest ∧
    f.cell.family = .standard .constant ∧ g.Books w frames (some f.cell.node) told ∧
    g.tree.Entangled c.node f.cell.node

/-- What a reader may get: the cell's value, and a detour only if it has none. -/
def Faithful (g : Scene) (c : CellKey) (p : Probe c.family.Value) : Prop :=
  p.value = g.value c ∧ (p.isReady = false → g.Lost c)

theorem fallback_eq_sentinel (f : Family) : f.fallback = f.sentinel := by
  cases f with
  | standard a => rfl
  | word a => rfl

theorem Inv.setValue (h : g.Inv clean w frames) (v : CellValue c.family.Value)
    (hfilled : w.stage c = some .success → v.isForced = true)
    (hsoft : ∀ x, v = .soft x → c.family = .standard .constant)
    (hforced : ∀ x, v = .forced x →
      w.stage c = some .success ∨ w.stage c = some .fail ∧ x = c.family.sentinel)
    (hexact : clean c → ∀ x, v.value? = some x → x = g.value c) :
    g.Inv clean (w.setValue c v) frames := by
  apply h.edit_content (World.edited_setValue w v) (World.stage_setValue c c v)
  · rw [World.content_setValue_self]
    exact hfilled
  · rw [World.content_setValue_self]
    exact hsoft
  · rw [World.content_setValue_self]
    exact hforced
  · rw [World.content_setValue_self]
    exact hexact

theorem ahead_setValue (w : World Attribute.schema) (v : CellValue c.family.Value) :
    w.Ahead (w.setValue c v) :=
  (World.edited_setValue w v).ahead_of_stage (World.stage_setValue c c v)

theorem Inv.put (h : g.Inv clean w frames) {v : CellValue c.family.Value}
    (hstage : w.stage c ≠ some .success)
    (hsoft : ∀ x, v = .soft x → c.family = .standard .constant)
    (hfail : v.isForced = true → w.stage c = some .fail) (hlost : clean c → g.Lost c)
    (hv : v.value? = some c.family.sentinel) : g.Inv clean (w.setValue c v) frames := by
  refine h.setValue v (fun hs => absurd hs hstage) hsoft ?_ ?_
  · rintro x rfl
    exact .inr ⟨hfail rfl, Option.some.inj hv⟩
  · intro hc x hx
    rw [hv] at hx
    cases hx
    exact (hlost hc).symm

/-- The end of a read keeps the invariant and the books, and the reader gets what it may
get. -/
def Finishes (g : Scene) (clean : g.Part) (c : CellKey) (w : World Attribute.schema)
    (frames : List (Frame Attribute.schema)) (outcome : Attempt)
    (r : World Attribute.schema × Except Error (Probe c.family.Value)) : Prop :=
  g.Inv clean r.1 frames ∧ w.Ahead r.1 ∧ ∃ p, r.2 = .ok p ∧ (clean c → g.Faithful c p) ∧
    ∀ told, g.Booked c w frames told outcome → g.Recorded c p r.1 frames told

theorem Inv.finishes_keep (h : g.Inv clean w frames) {outcome : Attempt}
    {r : World Attribute.schema × Except Error (Probe c.family.Value)} (p : Probe c.family.Value)
    (hr : r = (w, .ok p)) (hp : clean c → g.Faithful c p)
    (hbooks : ∀ told, g.Booked c w frames told outcome → g.Recorded c p w frames told) :
    g.Finishes clean c w frames outcome r := by
  rw [hr]
  exact ⟨h, .refl w, p, rfl, hp, hbooks⟩

theorem Inv.finishes_put (h : g.Inv clean w frames) {outcome : Attempt}
    {r : World Attribute.schema × Except Error (Probe c.family.Value)} {p : Probe c.family.Value}
    {v : CellValue c.family.Value} (hr : World.Same (w.setValue c v) r.1) (hp : r.2 = .ok p)
    (hforced : (w.content c).isForced = false)
    (hsoft : ∀ x, v = .soft x → c.family = .standard .constant)
    (hfail : v.isForced = true → w.stage c = some .fail) (hlost : clean c → g.Lost c)
    (hv : v.value? = some c.family.sentinel) (hpv : p.value = c.family.sentinel)
    (hbooks : ∀ told, g.Booked c w frames told outcome → g.Recorded c p r.1 frames told) :
    g.Finishes clean c w frames outcome r := by
  have hput : g.Inv clean (w.setValue c v) frames := by
    refine h.put (fun hsucc => ?_) hsoft hfail hlost hv
    rw [h.valued.filled c hsucc] at hforced
    cases hforced
  exact ⟨hput.same hr, (ahead_setValue w v).trans hr.ahead, p, hp,
    fun hc => ⟨hpv.trans (hlost hc).symm, fun _ => hlost hc⟩, hbooks⟩

theorem Inv.faithful_ready (h : g.Inv clean w frames) {v : c.family.Value}
    (hv : (w.content c).value? = some v) (hc : clean c) : g.Faithful c (.ready v) :=
  ⟨h.valued.agrees c hc v hv, nofun⟩

theorem Books.traced {status : Status} {b : Bool} {told : Multiset Diagnostic}
    (h : g.Books w frames none told) (hs : w.stage c = some status) (hb : status.verdict? = some b)
    (hc : c.family = .standard .constant) : g.Traced w.verdict? c.node :=
  h.circles.traced ((World.verdict?_of_stage hc hs).trans hb)

theorem calm_soften (v : c.family.Value) (hforced : (w.content c).isForced = false) :
    World.Calm w (w.setValue c (.soft v)) := by
  refine ⟨(World.edited_setValue w (.soft v)).steady rfl rfl (World.ended_setValue c c _) ?_,
    World.verdict?_eq_of_stage fun d _ => World.stage_setValue c d _⟩
  rw [World.content_setValue_self, hforced]
  rfl

theorem Inv.finishes_cycle (h : g.Inv clean w frames)
    (hs : g.Settles clean c w frames .cycle) (origin : Option Nat) (label : String) :
    g.Finishes clean c w frames .cycle (w.finishRead origin c label .cycle) := by
  obtain ⟨⟨f, rest, rfl, hconst⟩, hfamily, hl⟩ := hs
  cases hv : w.content c with
  | forced v =>
    refine h.finishes_keep (.ready v) ?_ (h.faithful_ready (by rw [hv]; rfl)) fun told hb => ?_
    · unfold World.finishRead
      rw [show (w.cell c).value = _ from hv]
      rfl
    · -- Where books are kept, a unit on the stack has not filled its cell.
      obtain ⟨hrunning, f', rest', -, hbooks, -⟩ := hb
      have hended := (hbooks.kept.forced c).1 (by rw [hv]; rfl)
      rw [hrunning] at hended
      cases hended
  | soft v =>
    refine h.finishes_keep (.cyclic v) ?_ (fun hc =>
      ⟨h.valued.agrees c hc v (by rw [hv]; rfl), fun _ => hl hc⟩) fun told hb => ⟨nofun, ?_⟩
    · unfold World.finishRead
      rw [show (w.cell c).value = _ from hv]
      rfl
    · obtain ⟨-, f', rest', hframes, hbooks, hent⟩ := hb
      cases hframes
      exact fun _ => ⟨f, rest, rfl, hconst, hbooks, hent⟩
  | unset =>
    have hread : w.finishRead origin c label .cycle =
        ((w.note origin (.fellBack c.label)).soften origin c c.family.fallback,
          .ok (.cyclic c.family.fallback)) := by
      unfold World.finishRead
      rw [show (w.cell c).value = _ from hv]
      rfl
    have hforced : (w.content c).isForced = false := by
      rw [hv]
      rfl
    have hnote := (World.same_note (w.setValue c (.soft c.family.sentinel)) origin
      (.fellBack c.label)).trans (World.same_note _ origin (.softened c.label))
    have hcalm := (calm_soften c.family.sentinel hforced).trans
      ((World.calm_note _ origin (.fellBack c.label)).trans
        (World.calm_note _ origin (.softened c.label)))
    rw [hread, fallback_eq_sentinel]
    refine h.finishes_put hnote rfl hforced (fun _ _ => hfamily) nofun hl rfl rfl fun told hb =>
      ⟨nofun, fun _ => ?_⟩
    obtain ⟨-, f', rest', hframes, hbooks, hent⟩ := hb
    cases hframes
    exact ⟨f, rest, rfl, hconst, hbooks.calm hcalm, hent⟩

theorem Inv.finishRead (h : g.Inv clean w frames) {outcome : Attempt}
    (hs : g.Settles clean c w frames outcome) (origin : Option Nat) (label : String) :
    g.Finishes clean c w frames outcome (w.finishRead origin c label outcome) := by
  cases outcome with
  | success =>
    have hforced := h.valued.filled c hs
    cases hv : w.content c with
    | forced v =>
      refine h.finishes_keep (.ready v) ?_ (h.faithful_ready (by rw [hv]; rfl)) fun told hb =>
        ⟨fun _ => ⟨hb, Books.traced hb hs rfl⟩, nofun⟩
      unfold World.finishRead
      rw [show (w.cell c).value = .forced v from hv]
      rfl
    | unset | soft v =>
      rw [hv] at hforced
      cases hforced
  | fail =>
    have hl : clean c → g.Lost c := fun hc => h.valued.failed c hc hs
    cases hv : w.content c with
    | forced v =>
      refine h.finishes_keep (.failed v) ?_ (fun hc =>
        ⟨h.valued.agrees c hc v (by rw [hv]; rfl), fun _ => hl hc⟩) fun told hb =>
        ⟨fun _ => ⟨hb, Books.traced hb hs rfl⟩, nofun⟩
      unfold World.finishRead
      rw [show (w.cell c).value = .forced v from hv]
      rfl
    | unset | soft v =>
      have hread : w.finishRead origin c label .fail =
          (w.force origin c c.family.sentinel, .ok (.failed c.family.sentinel)) := by
        unfold World.finishRead
        rw [show (w.cell c).value = _ from hv]
        rfl
      rw [hread]
      refine h.finishes_put (World.same_note _ _ _) rfl (by rw [hv]; rfl) nofun (fun _ => hs) hl
        rfl rfl fun told hb => ?_
      -- Where books are kept, a unit that has failed has filled its cell.
      have hforced := (hb.kept.forced c).2 (World.ended_of_stage hs)
      rw [hv] at hforced
      cases hforced
  | failing =>
    exact h.finishes_keep (.failed c.family.sentinel) rfl
      (fun hc => ⟨(hs.2.2 hc).symm, fun _ => hs.2.2 hc⟩)
      fun told hb => ⟨fun _ => ⟨hb.1, fun _ => hb.2⟩, nofun⟩
  | provisional =>
    cases hv : w.content c with
    | forced v | soft v =>
      refine h.finishes_keep (.ready v) ?_ (h.faithful_ready (by rw [hv]; rfl)) fun told hb =>
        ⟨fun _ => ⟨hb.1, fun _ => hb.2.1⟩, nofun⟩
      unfold World.finishRead
      rw [show (w.cell c).value = _ from hv]
      rfl
    | unset =>
      have hread : w.finishRead origin c label .provisional =
          (w.soften origin c c.family.fallback, .ok (.cyclic c.family.fallback)) := by
        unfold World.finishRead
        rw [show (w.cell c).value = _ from hv]
        rfl
      rw [hread, fallback_eq_sentinel]
      exact h.finishes_put (World.same_note _ _ _) rfl (by rw [hv]; rfl) (fun _ _ => hs.2.1)
        nofun hs.2.2 rfl rfl fun _ hb => absurd hv hb.2.2
  | cycle => exact h.finishes_cycle hs origin label

end Scene

end Attribution
