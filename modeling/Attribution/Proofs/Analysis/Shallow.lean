import Attribution.Proofs.Engine.Room
import Attribution.Proofs.Reference.Confined
import Attribution.Proofs.Analysis.Entering
/-!
# How deep a read leads

A cell is `Shallow` in a world if few units are put on the stack to get its value: none
if its resolver has ended, and else one more than for what its equation may read. Where
no cell leads back to itself and a read has room for as many units as it needs, it comes
to its end, and the stack never gets higher than the room it was given (`succeeds_probeCell`).

Between reads nothing is left undone (`Quiet`): whatever has been asked for has ended or
is on the stack, so no unit waits at a barrier.
-/

namespace Attribution

open Engine

namespace Scene

variable (g : Scene) {β γ : Type}

def Acyclic : Prop :=
  ∀ c, ¬Relation.TransGen g.Under c c

/-- At most `n` units are put on the stack to get the value of an attribute. -/
def Shallow (w : World Attribute.schema) : Nat → Attribute → NodeId → Prop
  | 0, a, id => w.ended ⟨.standard a, id⟩ = true
  | n + 1, a, id => w.ended ⟨.standard a, id⟩ = true ∨
    (g.subject.equation a id).Confined (Shallow w n) fun _ => True

/-- No unit is left to be run, except for the one that is about to be asked for. Whatever
a unit that has ended has read first has ended, too. -/
structure Quiet (next : Option CellKey) (w : World Attribute.schema)
    (frames : List (Frame Attribute.schema)) : Prop where
  inv : g.Inv False w frames
  heads : ∀ f ∈ frames, f.head = none
  idle : ∀ c, w.stage c = some .new → next = some c
  opened : ∀ c d, w.ended c = true → (g.subject.cellEquation c).first? = some d →
    w.ended d = true

/-- The action comes to its end with a result that satisfies `Q`, and the stack is never
higher than the limit. -/
def Succeeds (limit : Nat) (w : World Attribute.schema) (frames : List (Frame Attribute.schema))
    (x : Eval β) (Q : β → World Attribute.schema → List (Frame Attribute.schema) → Prop) : Prop :=
  Gives g.model (.roomy Analysis.home limit) Analysis.home w frames x.run
    fun result w' frames' => ∃ b, result = .ok b ∧ Onward w frames w' frames' ∧ Q b w' frames'

variable {g} {limit n : Nat} {w w' : World Attribute.schema} {c : CellKey}
  {f : Frame Attribute.schema} {frames frames' : List (Frame Attribute.schema)}
  {next : Option CellKey} {a : Attribute} {id : NodeId}

/-! ## Shallow cells -/

theorem Shallow.succ (h : g.Shallow w n a id) : g.Shallow w (n + 1) a id := by
  induction n generalizing a id with
  | zero => exact .inl h
  | succ n ih => exact h.imp (fun he => he) fun hx => hx.mono (fun _ _ => ih) fun _ h => h

theorem Shallow.mono {k : Nat} (h : g.Shallow w n a id) (hk : n ≤ k) : g.Shallow w k a id := by
  induction hk with
  | refl => exact h
  | step _ ih => exact ih.succ

theorem Shallow.ahead (h : g.Shallow w n a id) (ha : w.Ahead w') : g.Shallow w' n a id := by
  induction n generalizing a id with
  | zero => exact ha.ended h
  | succ n ih => exact h.imp ha.ended fun hx => hx.mono (fun _ _ => ih) fun _ h => h

/-! ## Quiet worlds -/

theorem Quiet.of_stage (h : g.Quiet next w frames) (hinv : g.Inv False w' frames)
    (hstage : ∀ d, w'.stage d = w.stage d) : g.Quiet next w' frames := by
  have hended : ∀ d, w'.ended d = w.ended d := fun d => by
    rw [World.ended, World.ended, hstage]
  refine ⟨hinv, h.heads, fun d hd => h.idle d ((hstage d).symm.trans hd), fun d e hd he => ?_⟩
  rw [hended] at hd ⊢
  exact h.opened d e hd he

theorem Quiet.same (h : g.Quiet next w frames) (hs : World.Same w w') : g.Quiet next w' frames :=
  h.of_stage (h.inv.same hs) hs.stage

theorem Quiet.of_ended (h : g.Quiet (some c) w frames) (hc : w.ended c = true) :
    g.Quiet none w frames := by
  refine ⟨h.inv, h.heads, fun d hd => ?_, h.opened⟩
  cases h.idle d hd
  rw [World.ended_of_stage hd] at hc
  cases hc

theorem Quiet.edit {status : Status} (h : g.Quiet next w frames) (hinv : g.Inv False w' frames')
    (hheads : ∀ e ∈ frames', e.head = none) (he : World.Edited c w w') (ha : w.Ahead w')
    (hnext : ∀ d, next = some d → d = c) (hstage : w'.stage c = some status)
    (hstatus : status ≠ .new)
    (hopened : ∀ d, (g.subject.cellEquation c).first? = some d → status.isTerminal = true →
      w'.ended d = true) : g.Quiet none w' frames' := by
  refine ⟨hinv, hheads, fun d hd => ?_, fun d e hd hfirst => ?_⟩
  · by_cases hdc : d = c
    · subst hdc
      exact absurd (Option.some.inj (hstage.symm.trans hd)) hstatus
    · rw [he.stage d hdc] at hd
      exact absurd (hnext d (h.idle d hd)) hdc
  · by_cases hdc : d = c
    · subst hdc
      rw [World.ended_of_stage hstage] at hd
      exact hopened e hfirst hd
    · rw [he.ended hdc] at hd
      exact ha.ended (h.opened d e hd hfirst)

theorem Quiet.create (h : g.Quiet none w frames) (hnode : c.node < g.outline.size)
    (hc : g.Admits c) (hfree : w.slots.family? c.family.attr c.node = none) {u : WorkUnit CellKey}
    (hn : World.Renewed c u w w') : g.Quiet (some c) w' frames ∧ w.Ahead w' := by
  obtain ⟨hinv, ha⟩ := h.inv.create hnode hc hfree hn
  refine ⟨⟨hinv, h.heads, fun d hd => ?_, fun d e hd hfirst => ?_⟩, ha⟩
  · by_cases hdc : d = c
    · rw [hdc]
    · rw [h.inv.wired.stage_renew hn hdc] at hd
      exact absurd (h.idle d hd) nofun
  · by_cases hdc : d = c
    · subst hdc
      rw [World.ended_of_stage hn.stage_self] at hd
      cases hd
    · rw [World.ended, h.inv.wired.stage_renew hn hdc] at hd
      exact ha.ended (h.opened d e hd hfirst)

theorem stage_finishRead (w : World Attribute.schema) (origin : Option Nat) (c d : CellKey)
    (label : String) (outcome : Attempt) :
    (w.finishRead origin c label outcome).1.stage d = w.stage d := by
  unfold World.finishRead
  cases outcome <;> cases (w.cell c).value
  all_goals
    first
    | rfl
    | exact World.stage_setValue c d _

/-! ## Rules -/

variable {Q : β → World Attribute.schema → List (Frame Attribute.schema) → Prop}
  {R : γ → World Attribute.schema → List (Frame Attribute.schema) → Prop}

theorem succeeds_pure {b : β} (h : Q b w frames) : g.Succeeds limit w frames (pure b) Q :=
  gives_pure ⟨b, rfl, .refl w frames, h⟩

theorem gives_of_succeeds {x : Eval β} {k : β → Eval γ}
    {P : Except Error γ → World Attribute.schema → List (Frame Attribute.schema) → Prop}
    (hx : g.Succeeds limit w frames x Q)
    (hk : ∀ b w' frames', Onward w frames w' frames' → Q b w' frames' →
      Gives g.model (.roomy Analysis.home limit) Analysis.home w' frames' (k b).run P) :
    Gives g.model (.roomy Analysis.home limit) Analysis.home w frames (x >>= k).run P := by
  apply gives_bind
  apply Gives.mono hx
  rintro _ w' frames' ⟨b, rfl, ho, hQ⟩
  exact hk b w' frames' ho hQ

theorem succeeds_bind {x : Eval β} {k : β → Eval γ} (hx : g.Succeeds limit w frames x Q)
    (hk : ∀ b w' frames', Onward w frames w' frames' → Q b w' frames' →
      g.Succeeds limit w' frames' (k b) R) : g.Succeeds limit w frames (x >>= k) R := by
  apply gives_of_succeeds hx
  intro b w' frames' ho hQ
  apply Gives.mono (hk b w' frames' ho hQ)
  rintro _ w'' frames'' ⟨y, rfl, ho', hR⟩
  exact ⟨y, rfl, ho.trans ho', hR⟩

theorem Succeeds.mono {x : Eval β}
    {Q' : β → World Attribute.schema → List (Frame Attribute.schema) → Prop}
    (h : g.Succeeds limit w frames x Q)
    (hQ : ∀ b w' frames', Onward w frames w' frames' → Q b w' frames' → Q' b w' frames') :
    g.Succeeds limit w frames x Q' := by
  apply Gives.mono h
  rintro _ w' frames' ⟨b, rfl, ho, hb⟩
  exact ⟨b, rfl, ho, hQ b w' frames' ho hb⟩

theorem succeeds_slots : g.Succeeds limit w frames Eval.slots fun s w' frames' =>
    s = w.slots ∧ w' = w ∧ frames' = frames :=
  gives_env (gives_pure ⟨_, rfl, .refl w frames, rfl, rfl, rfl⟩)

theorem succeeds_note (h : g.Quiet none w frames) (event : Event) :
    g.Succeeds limit w frames (Eval.ask (.note event)) fun _ w' frames' =>
      g.Quiet none w' frames' := by
  apply gives_note
  intro origin
  have hs := World.same_note w origin event
  exact gives_pure ⟨_, rfl, ⟨hs.ahead, rfl⟩, h.same hs⟩

theorem succeeds_report (h : g.Quiet none w frames) (d : Diagnostic) :
    g.Succeeds limit w frames (Eval.ask (.report d)) fun _ w' frames' =>
      g.Quiet none w' frames' := by
  apply gives_report
  intro origin
  have hs : World.Same w (w.report g.model origin Analysis.home d) :=
    World.same_report (fun _ _ => rfl) h.inv.wired.session origin d
  exact gives_pure ⟨_, rfl, ⟨hs.ahead, rfl⟩, h.same hs⟩

theorem succeeds_fail (h : g.Quiet none w (f :: frames)) (d : Diagnostic) :
    g.Succeeds limit w (f :: frames) (Eval.ask (.fail d)) fun _ w' frames' =>
      g.Quiet none w' frames' := by
  apply gives_fail
  · intro _ origin
    have hs := World.same_note w origin (.suppressed f.unit.label d.message)
    exact gives_pure ⟨_, rfl, ⟨hs.ahead, rfl⟩, h.same hs⟩
  · intro _ origin
    obtain ⟨he, hstage⟩ := h.inv.wired.restage_setStatus
      (h.inv.stacked.held f List.mem_cons_self) .runningWillFail
    have hdoom := h.inv.doom he rfl hstage False.elim
    have ha := h.inv.ahead_doom he hstage
    have hheads := List.forall_mem_cons.1 h.heads
    have hquiet := h.edit hdoom (List.forall_mem_cons.2 ⟨hheads.1, hheads.2⟩) he ha nofun hstage
      nofun nofun
    have hs := World.same_report (m := g.model) (fun _ _ => rfl) hdoom.wired.session origin d
    exact gives_pure ⟨_, rfl, ⟨ha.trans hs.ahead, rfl⟩, hquiet.same hs⟩

/-! ## Reading a cell -/

/-- The resolver of the cell has ended, and its outcome tells how. -/
def Final (c : CellKey) (w : World Attribute.schema) (outcome : Attempt) : Prop :=
  outcome = .success ∧ w.stage c = some .success ∨ outcome = .fail ∧ w.stage c = some .fail

theorem Final.settles {outcome : Attempt} (h : Final c w outcome) :
    g.Settles False c w frames outcome := by
  rcases h with ⟨rfl, hs⟩ | ⟨rfl, hs⟩
  · exact hs
  · exact hs

theorem Final.ended {outcome : Attempt} (h : Final c w outcome) : w.ended c = true := by
  rcases h with ⟨-, hs⟩ | ⟨-, hs⟩
  · exact World.ended_of_stage hs
  · exact World.ended_of_stage hs

def Answered (g : Scene) (c : CellKey) (w : World Attribute.schema)
    (frames : List (Frame Attribute.schema)) (r : Except Error Attempt)
    (w' : World Attribute.schema) (frames' : List (Frame Attribute.schema)) : Prop :=
  ∃ outcome, r = .ok outcome ∧ Final c w' outcome ∧ g.Quiet none w' frames' ∧
    Onward w frames w' frames'

/-- Resolvers that need no more than `n` units may be asked for where there is room for
that many. -/
def Opens (g : Scene) (limit n : Nat) : Prop :=
  ∀ (w : World Attribute.schema) (frames : List (Frame Attribute.schema)) (a : Attribute)
    (id : NodeId) (u : WorkUnit CellKey), g.Quiet (some ⟨.standard a, id⟩) w frames →
    w.resolver? ⟨.standard a, id⟩ = some u → g.Asks frames ⟨.standard a, id⟩ →
    g.Shallow w n a id → frames.length + n ≤ limit →
    Answers g.model (.roomy Analysis.home limit) Analysis.home w frames (.unit u)
      (g.Answered ⟨.standard a, id⟩ w frames)

theorem succeeds_occupy (hloose : ¬g.loose) (h : g.Quiet none w frames) (hc : g.Admits c) :
    g.Succeeds limit w frames (g.subject.occupy c) fun _ w' frames' =>
      frames' = frames ∧ g.Quiet (some c) w' frames ∧ ∃ u, w'.resolver? c = some u := by
  unfold Subject.occupy
  obtain ⟨n, hnode⟩ := exists_node (hc hloose).2
  rw [hnode, if_neg (by simp)]
  apply succeeds_bind succeeds_slots
  rintro _ w frames - ⟨rfl, rfl, rfl⟩
  cases hslot : w.slots.family? c.family.attr c.node with
  | some f =>
    obtain ⟨-, u, hu⟩ := h.inv.wired.taken _ _ f hslot
    obtain rfl := h.inv.wired.family_eq hloose hc hslot
    dsimp only
    rw [if_pos rfl]
    exact succeeds_pure ⟨rfl, ⟨h.inv, h.heads, fun d hd => absurd (h.idle d hd) nofun, h.opened⟩,
      u, hu⟩
  | none =>
    have hn := World.renewed_create (c := c) h.inv.wired.session c.label
    obtain ⟨hquiet, ha⟩ := h.create (hc hloose).2 hc hslot hn
    exact gives_env (gives_register (gives_resolveWith
      (gives_pure ⟨_, rfl, ⟨ha, rfl⟩, rfl, hquiet, _, hn.resolver_self⟩)))

theorem succeeds_probeCell (hloose : ¬g.loose) (hopens : g.Opens limit n)
    (h : g.Quiet none w frames) (hasks : g.Asks frames ⟨.standard a, id⟩)
    (hid : id < g.outline.size) (hshallow : g.Shallow w n a id)
    (hlen : frames.length + n ≤ limit) :
    g.Succeeds limit w frames (g.subject.probeCell ⟨.standard a, id⟩) fun _ w' frames' =>
      g.Quiet none w' frames' ∧ w'.ended ⟨.standard a, id⟩ = true := by
  apply succeeds_bind (succeeds_occupy hloose h fun _ => ⟨rfl, hid⟩)
  rintro - w' frames ho ⟨rfl, h', u, hu⟩
  show Gives g.model (.roomy Analysis.home limit) Analysis.home w' frames
    (.ask (.probe ⟨.standard a, id⟩) fun r => (liftExcept r : Eval (Probe a.Value)).run) _
  apply gives_probe trivial hu
  · intro v hv
    have hended : w'.ended ⟨.standard a, id⟩ = true := by
      rcases h'.inv.valued.forced ⟨.standard a, id⟩ v hv with hs | ⟨hs, -⟩
      · exact World.ended_of_stage hs
      · exact World.ended_of_stage hs
    exact gives_pure ⟨_, rfl, .refl w' frames, h'.of_ended hended, hended⟩
  · intro _
    apply (hopens w' frames a id u h' hu hasks (hshallow.ahead ho.ahead) hlen).mono
    rintro _ w'' frames'' ⟨outcome, rfl, hfinal, hquiet, ho'⟩
    refine ⟨hquiet.inv.wired.hooks _, fun origin => ?_⟩
    obtain ⟨hinv, ha, p, hp, -⟩ := hquiet.inv.finishRead hfinal.settles origin u.label
    rw [hp]
    exact gives_pure ⟨p, rfl, ⟨ho'.ahead.trans ha, ho'.units⟩,
      hquiet.of_stage hinv fun d => stage_finishRead _ _ _ d _ _, ha.ended hfinal.ended⟩

theorem succeeds_solve {α : Type} {x : Equation α} {post : α → Prop} (hloose : ¬g.loose)
    (hopens : g.Opens limit n) (hx : x.Meets (Part.terms (g := g) False a id) post)
    (hconfined : x.Confined (g.Shallow w n) fun _ => True) (h : g.Quiet none w frames)
    (htop : Tops frames ⟨.standard a, id⟩) (hlen : frames.length + n ≤ limit) :
    g.Succeeds limit w frames (g.subject.solve x) fun _ w' frames' => g.Quiet none w' frames' ∧
      ∀ d, x.first? = some d → w'.ended d = true := by
  induction x generalizing w frames with
  | done v => exact succeeds_pure ⟨h, nofun⟩
  | probe b m next ih =>
    obtain ⟨hask, hnext⟩ := hx
    have hasks : g.Asks frames ⟨.standard b, m⟩ := by
      obtain ⟨f, rest, rfl, hf⟩ := htop
      intro f' rest' heq
      cases heq
      rw [hf]
      exact hask.1
    apply succeeds_bind (succeeds_probeCell hloose hopens h hasks hask.1.1 hconfined.1 hlen)
    rintro p w' frames' ho ⟨h', hended⟩
    apply (ih p (hnext p False.elim) ((hconfined.2 p).mono (fun _ _ hs => hs.ahead ho.ahead)
      fun _ h => h) h' (ho.tops htop) (by rw [ho.length]; exact hlen)).mono
    rintro v w'' frames'' ho' ⟨h'', -⟩
    refine ⟨h'', fun d hd => ?_⟩
    cases hd
    exact ho'.ahead.ended hended
  | fail d next ih =>
    obtain ⟨f, rest, rfl, hf⟩ := htop
    apply succeeds_bind (succeeds_fail h d)
    intro _ w' frames' ho h'
    exact ih hx.2 (hconfined.mono (fun _ _ hs => hs.ahead ho.ahead) fun _ h => h) h'
      (ho.tops ⟨f, rest, rfl, hf⟩) (by rw [ho.length]; exact hlen)
  | report d next ih =>
    apply succeeds_bind (succeeds_report h d)
    intro _ w' frames' ho h'
    exact ih hx (hconfined.mono (fun _ _ hs => hs.ahead ho.ahead) fun _ h => h) h' (ho.tops htop)
      (by rw [ho.length]; exact hlen)
  | stop e => exact hx.elim
  | malformed => exact hx.elim

/-! ## Running a unit -/

theorem Quiet.close (h : g.Quiet none w (f :: frames))
    (hfirst : ∀ d, (g.subject.cellEquation f.cell).first? = some d → w.ended d = true)
    (v : f.cell.family.Value) (origin origin' : Option Nat) :
    g.Answered f.cell w frames (.ok (Frame.outcome { f with fills := [f.cell] } (.ok ())).2)
      (World.closed (if (f.head.isSome || f.doomed) = true then w.soften origin f.cell v
        else w.force origin f.cell v) Analysis.home origin' { f with fills := [f.cell] } (.ok ()))
      frames := by
  obtain ⟨hhead, hheads⟩ := List.forall_mem_cons.1 h.heads
  -- The unit writes to its own cell only, and then its status changes.
  have hsettled : ∀ {w' : World Attribute.schema} {status : Status} (event : Event),
      World.Edited f.cell w w' → w'.stage f.cell = w.stage f.cell → status.isTerminal = true →
      g.Inv False (settled w' f status origin' event) frames →
      w.Ahead (settled w' f status origin' event) →
      g.Quiet none (settled w' f status origin' event) frames := by
    intro w' status event he hstage ht hinv ha
    obtain ⟨hall, hstatus, -⟩ := h.inv.edited_settled status he hstage origin' event
    exact h.edit hinv hheads hall ha nofun hstatus (by rintro rfl; cases ht)
      fun d hd _ => ha.ended (hfirst d hd)
  unfold World.closed World.revised Frame.outcome
  cases hd : f.doomed with
  | true =>
    simp only [hhead, Bool.or_true, if_true]
    obtain ⟨hinv, ho, hs, -⟩ := h.inv.close_doomed hd v origin origin'
    exact ⟨.fail, rfl, .inr ⟨rfl, hs⟩, hsettled _
      (((World.edited_setValue w _).trans (World.edited_note f.cell _ origin _)).trans
        ((World.edited_setValue _ _).trans (World.edited_note f.cell _ origin' _)))
      ((World.stage_setValue f.cell f.cell _).trans (World.stage_setValue f.cell f.cell _))
      rfl hinv ho.ahead, ho⟩
  | false =>
    simp only [hhead, Option.isSome_none, Bool.or_false, Bool.false_eq_true, if_false]
    obtain ⟨hinv, ho, hs, -⟩ := h.inv.close_success hd (v := v) False.elim origin origin'
    exact ⟨.success, rfl, .inl ⟨rfl, hs⟩, hsettled _
      ((World.edited_setValue w _).trans (World.edited_note f.cell _ origin _))
      (World.stage_setValue f.cell f.cell _) rfl hinv ho.ahead, ho⟩

theorem Answered.onward {r : Except Error Attempt} {w'' : World Attribute.schema}
    {frames'' : List (Frame Attribute.schema)} (h : g.Answered c w' frames' r w'' frames'')
    (ho : Onward w frames w' frames') : g.Answered c w frames r w'' frames'' := by
  obtain ⟨outcome, hr, hfinal, hquiet, ho'⟩ := h
  exact ⟨outcome, hr, hfinal, hquiet, ho.trans ho'⟩

def Finished (g : Scene) (c : CellKey) (w : World Attribute.schema)
    (frames : List (Frame Attribute.schema)) (result : Except Error Unit)
    (w' : World Attribute.schema) (frames' : List (Frame Attribute.schema)) : Prop :=
  ∃ f rest, frames' = f :: rest ∧ (∀ d ∈ f.fills, (w'.cell d).hooks = []) ∧
    ∀ origin, g.Answered c w frames (result.map fun _ => (f.outcome result).2)
      (w'.closed Analysis.home origin f result) rest

theorem gives_deliver_within (h : g.Quiet none w (f :: frames)) (hf : f.cell = c)
    (hfirst : ∀ d, (g.subject.cellEquation c).first? = some d → w.ended d = true)
    (v : c.family.Value) :
    Gives g.model (.roomy Analysis.home limit) Analysis.home w (f :: frames)
      (liftM (Action.deliver c v : Action Attribute.schema Unit) : Eval Unit).run
      (g.Finished c w frames) := by
  subst hf
  apply gives_bind
  apply gives_deliver (h.inv.stacked.held f List.mem_cons_self) (h.inv.wired.hooks f.cell)
  intro origin
  apply gives_pure
  refine ⟨{ f with fills := [f.cell] }, frames, ?_, fun d _ => ?_, h.close hfirst v origin⟩
  · rw [h.inv.stacked.fills f List.mem_cons_self]
    rfl
  · split
    · exact (World.hooks_setValue f.cell d _).trans (h.inv.wired.hooks d)
    · exact (World.hooks_setValue f.cell d _).trans (h.inv.wired.hooks d)

theorem gives_body_within (hs : g.outline.Shaped) (hloose : ¬g.loose) (hopens : g.Opens limit n)
    (hconfined : (g.subject.equation a id).Confined (g.Shallow w n) fun _ => True)
    (h : g.Quiet none w (f :: frames)) (hf : f.cell = ⟨.standard a, id⟩)
    (hlen : (f :: frames).length + n ≤ limit) :
    Gives g.model (.roomy Analysis.home limit) Analysis.home w (f :: frames)
      (g.model.body ⟨.standard a, id⟩) (g.Finished ⟨.standard a, id⟩ w frames) := by
  have hid : id < g.outline.size := by
    have hnode := (h.inv.wired.serves _ _ (h.inv.stacked.held f List.mem_cons_self)).node_lt
    rw [hf] at hnode
    exact hnode
  show Gives g.model _ Analysis.home w (f :: frames) (g.subject.resolve ⟨.standard a, id⟩).run _
  unfold Subject.resolve
  apply gives_of_succeeds succeeds_slots
  rintro _ w frames' - ⟨rfl, rfl, rfl⟩
  rw [if_neg (by rw [h.inv.wired.attached]; exact Bool.false_ne_true)]
  apply gives_of_succeeds (succeeds_solve hloose hopens (equation_meets_terms hs False a hid)
    hconfined h ⟨f, frames, rfl, hf⟩ hlen)
  rintro v w' frames' ho ⟨h', hfirst⟩
  obtain ⟨f', rest, rfl, hunit, -⟩ := List.map_eq_cons_iff.1 ho.units
  have hf' : f'.cell = ⟨.standard a, id⟩ := (congrArg WorkUnit.rule hunit).trans hf
  apply Gives.mono (gives_deliver_within h' hf' hfirst v)
  rintro result w'' frames'' ⟨f'', rest', hrest, hooks, hanswered⟩
  exact ⟨f'', rest', hrest, hooks, fun origin => (hanswered origin).onward ho.tail⟩

/-! ## Asking for a unit -/

theorem Quiet.filter_phase (h : g.Quiet (some c) w frames) {u : WorkUnit CellKey}
    (hu : w.resolver? c = some u) (hasks : g.Asks frames c) :
    u.phase.filter w.ledger.hasEarlier = none := by
  rw [Option.filter_eq_none_iff]
  intro p hp hearlier
  obtain ⟨-, rfl⟩ := h.inv.wired.phase_eq hu hp
  obtain ⟨x, hx, hlt⟩ := w.ledger.exists_of_hasEarlier h.inv.wired.tidy hearlier
  have hstands := h.inv.stands hasks (w.ledger.mem_earlierUnits.2 ⟨hx, hlt⟩)
  have hrule : c = x.2.rule := Option.some.inj (h.idle _ hstands.new)
  exact absurd hstands.lower (by rw [← hrule]; exact Nat.lt_irrefl _)

theorem Inv.not_running (h : g.Inv False w frames) (hacyclic : g.Acyclic)
    (hasks : g.Asks frames c) {status : Status} (hs : w.stage c = some status) :
    status.isRunning = false := by
  cases hrun : status.isRunning with
  | false => rfl
  | true =>
    obtain ⟨f, hf, hcell⟩ := h.stacked.on_stack c status hs hrun
    have hpath := h.stacked.linked.path hasks hf
    rw [hcell] at hpath
    exact absurd hpath (hacyclic c)

theorem answers_ended (h : g.Quiet (some c) w frames) {u : WorkUnit CellKey}
    (hu : w.resolver? c = some u) (hended : w.ended c = true) :
    Answers g.model (.roomy Analysis.home limit) Analysis.home w frames (.unit u)
      (g.Answered c w frames) := by
  obtain ⟨status, hs, ht⟩ := World.exists_of_ended hended
  have hstatus : w.ledger.status? u.id = some status := (World.stage_eq hu).symm.trans hs
  have hquiet := h.of_ended hended
  have hoff : status.isRunning = false → Frame.indexOf? u.id frames = none := fun hidle =>
    h.inv.stacked.indexOf?_eq_none hu hs hidle h.inv.wired
  cases status with
  | success =>
    exact answers_success ⟨_, hstatus, rfl, nofun⟩ (hoff rfl) hstatus
      ⟨.success, rfl, .inl ⟨rfl, hs⟩, hquiet, .refl w frames⟩
  | fail =>
    exact answers_fail ⟨_, hstatus, rfl, nofun⟩ (hoff rfl) hstatus
      ⟨.fail, rfl, .inr ⟨rfl, hs⟩, hquiet, .refl w frames⟩
  | new | running | runningRecursive | runningWillFail => cases ht

theorem answers_new (hs : g.outline.Shaped) (hloose : ¬g.loose) (hlimit : limit ≤ g.depth)
    (hopens : g.Opens limit n) (h : g.Quiet (some ⟨.standard a, id⟩) w frames)
    {u : WorkUnit CellKey} (hu : w.resolver? ⟨.standard a, id⟩ = some u)
    (hasks : g.Asks frames ⟨.standard a, id⟩) (hnew : w.stage ⟨.standard a, id⟩ = some .new)
    (hconfined : (g.subject.equation a id).Confined (g.Shallow w n) fun _ => True)
    (hlen : frames.length + (n + 1) ≤ limit) :
    Answers g.model (.roomy Analysis.home limit) Analysis.home w frames (.unit u)
      (g.Answered ⟨.standard a, id⟩ w frames) := by
  have hstatus : w.ledger.status? u.id = some .new := (World.stage_eq hu).symm.trans hnew
  have hclear : Clear w.ledger frames u :=
    ⟨h.inv.stacked.indexOf?_eq_none hu hnew rfl h.inv.wired, hstatus, h.filter_phase hu hasks⟩
  have hroom : frames.length < w.ledger.limits.maxDepth := by
    rw [h.inv.wired.limit]
    omega
  have henters : (Watch.roomy Analysis.home limit).enters w frames u :=
    ⟨.new, hstatus, rfl, fun _ => by omega⟩
  apply answers_granted henters hclear hroom
  intro origin owner
  obtain ⟨he, hrunning⟩ := h.inv.wired.restage_claim hu owner
  have hall := he.trans (World.edited_note _ _ origin (.started u.label u.id))
  have ha := hall.ahead_of_new hnew
  have hquiet := h.edit (h.inv.claim hu hnew hasks hall hrunning rfl)
    (List.forall_mem_cons.2 ⟨rfl, h.heads⟩) hall ha (fun d hd => (Option.some.inj hd).symm)
    hrunning nofun nofun
  have hrule : u.rule = ⟨.standard a, id⟩ := (h.inv.wired.serves _ u hu).rule
  rw [show (u.rule : Attribute.schema.Rule) = ⟨.standard a, id⟩ from hrule]
  apply Gives.mono (gives_body_within hs hloose hopens
    (hconfined.mono (fun _ _ hshallow => hshallow.ahead ha) fun _ h => h) hquiet hrule
    (by rw [List.length_cons]; omega))
  rintro result w' frames' ⟨f, rest, hrest, hooks, hanswered⟩
  exact ⟨f, rest, hrest, hooks, fun origin' =>
    ⟨trivial, (hanswered origin').onward ⟨ha, rfl⟩⟩⟩

/-- **A resolver that needs few units gets by with little room.** -/
theorem opens (hs : g.outline.Shaped) (hloose : ¬g.loose) (hacyclic : g.Acyclic)
    (hlimit : limit ≤ g.depth) (n : Nat) : g.Opens limit n := by
  induction n with
  | zero =>
    intro w frames a id u h hu _ hshallow _
    exact answers_ended h hu hshallow
  | succ n ih =>
    intro w frames a id u h hu hasks hshallow hlen
    rcases hshallow with hended | hconfined
    · exact answers_ended h hu hended
    · obtain ⟨status, hstage⟩ := h.inv.wired.exists_stage hu
      have hidle := h.inv.not_running hacyclic hasks hstage
      cases status with
      | new => exact answers_new hs hloose hlimit ih h hu hasks hstage hconfined hlen
      | success | fail => exact answers_ended h hu (World.ended_of_stage hstage)
      | running | runningRecursive | runningWillFail => cases hidle

end Scene

end Attribution
