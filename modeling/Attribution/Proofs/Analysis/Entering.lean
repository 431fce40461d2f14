import Attribution.Proofs.Analysis.Running
/-!
# Asking for units

A unit that is asked for comes to an end. While it runs, the stack is one unit
higher than before, and no two units on the stack belong to one cell, so the
room above the stack bounds how deep requests lead. At a barrier, every unit
that is run before goes to its end, and there are no more units than slots.
-/

namespace Attribution

open Engine

namespace Scene

variable {g : Scene} {clean clean' : g.Part} {w w' : World Attribute.schema}
  {frames frames' : List (Frame Attribute.schema)} {f : Frame Attribute.schema} {c : CellKey}
  {u : WorkUnit CellKey} {n : Nat}

/-- The answer to a request for the resolver of a cell. `K` says what the books are at the
start. -/
def Entered (g : Scene) (clean : g.Part) (c : CellKey) (K : Multiset Diagnostic → Prop)
    (w : World Attribute.schema) (frames : List (Frame Attribute.schema)) :
    Except Error Attempt → World Attribute.schema → List (Frame Attribute.schema) → Prop :=
  g.Yields clean w frames fun outcome w' frames' => g.Settles clean c w' frames' outcome ∧
    (clean.Whole → ∀ told, K told → g.Booked c w' frames' told outcome)

/-- Resolvers may be asked for where the stack has room for `n` more units. -/
def Enters (g : Scene) (n : Nat) : Prop :=
  ∀ (clean : g.Part) (w : World Attribute.schema) (frames : List (Frame Attribute.schema))
    (c : CellKey) (u : WorkUnit CellKey), g.Inv clean w frames → w.resolver? c = some u →
    g.Asks frames c → 8 * g.outline.size ≤ frames.length + n →
    Answers g.model g.watch Analysis.home w frames (.unit u)
      (g.Entered clean c (g.Books w frames none) w frames)

theorem Entered.onward {K K' : Multiset Diagnostic → Prop} {r : Except Error Attempt}
    {w'' : World Attribute.schema} {frames'' : List (Frame Attribute.schema)}
    (h : g.Entered clean c K w' frames' r w'' frames'') (ho : Onward w frames w' frames')
    (hK : clean.Whole → ∀ told, K' told → K told) :
    g.Entered clean c K' w frames r w'' frames'' := by
  cases r with
  | ok outcome =>
    obtain ⟨hinv, ho', hs, hkept⟩ := h
    exact ⟨hinv, ho.trans ho', hs, fun hc told hk => hkept hc told (hK hc told hk)⟩
  | error x => exact ⟨h.1, h.2.1, ho.trans h.2.2⟩

theorem Inv.enters (h : g.Inv clean w frames) (hu : w.resolver? c = some u)
    (hasks : g.Asks frames c) : g.watch.enters w frames u :=
  ⟨c, h.bare, hu, hasks⟩

/-! ## Reading cells and solving equations -/

/-- What the books are after a read of the cell `c` that started with the world `w`. Where
they are kept, the resolver of the cell has ended, unless the reader is a constant. -/
structure Read (g : Scene) (c : CellKey) (w : World Attribute.schema)
    (frames : List (Frame Attribute.schema)) (p : Probe c.family.Value)
    (w' : World Attribute.schema) (frames' : List (Frame Attribute.schema)) : Prop where
  recorded : g.Wanted c → ∀ told, g.Books w frames none told → g.Recorded c p w' frames' told
  ended : g.Wanted c → ∀ told, g.Books w frames none told → w'.ended c = true ∨
    ∃ f rest, frames' = f :: rest ∧ f.cell.family = .standard .constant

theorem Settles.ended {outcome : Attempt} (hs : g.Settles clean c w frames outcome)
    (ha : w.Ahead w') : w'.ended c = true ∨
      ∃ f rest, frames = f :: rest ∧ f.cell.family = .standard .constant := by
  cases outcome with
  | success => exact .inl (World.ended_of_stage (ha.settled c .success hs rfl))
  | fail => exact .inl (World.ended_of_stage (ha.settled c .fail hs rfl))
  | provisional | cycle | failing => exact .inr hs.1

theorem runs_probeCell (henter : g.Enters n) (h : g.Inv clean w frames) (hasks : g.Asks frames c)
    (hc : g.Admits c) (hn : 8 * g.outline.size ≤ frames.length + n) :
    g.Runs clean w frames (g.subject.probeCell c) fun p w' frames' => c.node < g.outline.size ∧
      (clean c → g.Faithful c p) ∧ (clean.Whole → g.Read c w frames p w' frames') := by
  apply runs_bind (runs_occupy h hc)
  rintro - w' frames h' - ⟨rfl, ⟨u, hu⟩, hcreate⟩
  have hnode := (h'.wired.serves c u hu).node_lt
  show Gives g.model g.watch Analysis.home w' frames
    (.ask (.probe c) fun r => (liftExcept r : Eval (Probe c.family.Value)).run) _
  apply gives_probe hasks hu
  · intro v hv
    have hforced : w'.content c = .forced v := hv
    -- Where books are kept, a value that is final was put there at the end of a unit.
    have hended : ∀ {blame told}, g.Books w' frames blame told → w'.ended c = true :=
      fun hb => (hb.kept.forced c).1 (by rw [hforced]; rfl)
    refine gives_pure ⟨h', .refl w' frames, hnode, h'.faithful_ready (by rw [hforced]; rfl),
      fun _ => ⟨fun hwanted told hb => ⟨fun _ => ?_, nofun⟩, fun hwanted told hb =>
        .inl (hended (hcreate hwanted none told hb))⟩⟩
    · have hb' := hcreate hwanted none told hb
      refine ⟨hb', fun hconst => ?_⟩
      obtain ⟨status, hs, ht⟩ := World.exists_of_ended (hended hb')
      obtain ⟨b, hverdict⟩ : ∃ b, status.verdict? = some b := by
        cases status with
        | success | fail => exact ⟨_, rfl⟩
        | _ => cases ht
      exact hb'.circles.traced ((World.verdict?_of_stage hconst hs).trans hverdict)
  · intro _
    apply (henter clean w' frames c u h' hu hasks hn).mono
    intro r w'' frames'' hr
    cases r with
    | error x => exact gives_pure hr
    | ok outcome =>
      obtain ⟨hinv, ho', hs, hbooked⟩ := hr
      refine ⟨hinv.wired.hooks c, fun origin => ?_⟩
      obtain ⟨hfinal, ha, p, hp, hfaithful, hrecorded⟩ := hinv.finishRead hs origin u.label
      rw [hp]
      exact gives_pure ⟨hfinal, ⟨ho'.ahead.trans ha, ho'.units⟩, hnode, hfaithful, fun hclean =>
        ⟨fun hwanted told hb => hrecorded told
          (hbooked hclean told (hcreate hwanted none told hb)), fun _ _ _ => hs.ended ha⟩⟩

def Tops (frames : List (Frame Attribute.schema)) (c : CellKey) : Prop :=
  ∃ f rest, frames = f :: rest ∧ f.cell = c

theorem Onward.tops (h : Onward w frames w' frames') (ht : Tops frames c) : Tops frames' c := by
  obtain ⟨f, rest, rfl, hf⟩ := ht
  obtain ⟨f', rest', hframes', hunit, -⟩ := List.map_eq_cons_iff.1 h.units
  exact ⟨f', rest', hframes', (congrArg WorkUnit.rule hunit).trans hf⟩

theorem Recorded.books {p : Probe c.family.Value} {told : Multiset Diagnostic} {a : Attribute}
    {id : NodeId} (h : g.Recorded c p w frames told) (htop : Tops frames ⟨.standard a, id⟩)
    (ha : a ≠ .constant) : g.Books w frames none told := by
  cases hp : p.isCyclic with
  | false => exact (h.found hp).1
  | true =>
    obtain ⟨f, rest, rfl, hconst, -⟩ := h.cyclic hp
    obtain ⟨f', rest', heq, hf⟩ := htop
    cases heq
    rw [hf] at hconst
    cases hconst
    exact absurd rfl ha

section

variable (henter : g.Enters n) {α : Type} {x : Equation α} {a : Attribute} {id : NodeId}
  {post : α → Prop}

include henter

theorem runs_ask {b : Attribute} {m : NodeId} (hask : (clean.terms a id).asks b m)
    (h : g.Inv clean w frames) (htop : Tops frames ⟨.standard a, id⟩)
    (hn : 8 * g.outline.size ≤ frames.length + n) :
    g.Runs clean w frames (g.subject.probeCell ⟨.standard b, m⟩) fun p w' frames' =>
      (clean.terms a id).answers b m p ∧
        (clean.Whole → g.Read ⟨.standard b, m⟩ w frames p w' frames') := by
  apply (runs_probeCell henter h (c := ⟨.standard b, m⟩) ?_ (fun _ => ⟨rfl, hask.1.1⟩) hn).mono
  · rintro p w' frames' - ⟨-, hp, hread⟩
    exact ⟨fun hc => hp (hask.2 hc), hread⟩
  · obtain ⟨f, rest, rfl, hf⟩ := htop
    intro f' rest' heq
    cases heq
    rw [hf]
    exact hask.1

/-- What an equation has told by the time it is solved, and what has ended then. -/
theorem runs_solve {tells : α → Multiset Diagnostic → List CellKey → Prop}
    (hx : x.Meets (clean.terms a id) post) (ha : a ≠ .constant)
    (ht : clean.Whole → g.outline.Tells g.rules x tells)
    (h : g.Inv clean w frames) (htop : Tops frames ⟨.standard a, id⟩)
    (hn : 8 * g.outline.size ≤ frames.length + n) :
    g.Runs clean w frames (g.subject.solve x) fun v w' frames' => post v ∧
      (clean.Whole → ∀ told, g.Books w frames none told → ∃ ds seen, tells v ds seen ∧
        g.Books w' frames' none (told + ds) ∧ ∀ d ∈ seen, w'.ended d = true) := by
  induction x generalizing w frames tells with
  | done v =>
    refine runs_pure h ⟨hx, fun hclean told hb => ⟨0, [], ht hclean, ?_, nofun⟩⟩
    rw [Multiset.add_zero]
    exact hb
  | probe b m next ih =>
    obtain ⟨hask, hnext⟩ := hx
    apply runs_bind (runs_ask henter hask h htop hn)
    rintro p w' frames' h' ho ⟨hp, hread⟩
    have htop' := ho.tops htop
    apply (ih p (hnext p hp) (fun hclean => (ht hclean).2 p (hp (hclean _))) h' htop'
      (by rw [ho.length]; exact hn)).mono
    rintro v w'' frames'' ho' ⟨hpost, hbooks⟩
    refine ⟨hpost, fun hclean told hb => ?_⟩
    have hwanted := (ht hclean).1
    have hb' := ((hread hclean).recorded hwanted told hb).books htop' ha
    obtain ⟨ds, seen, htells, hb'', hseen⟩ := hbooks hclean told hb'
    refine ⟨ds, ⟨.standard b, m⟩ :: seen, htells, hb'', fun d hd => ?_⟩
    rcases List.mem_cons.1 hd with rfl | hd
    · rcases (hread hclean).ended hwanted told hb with hended | ⟨f, rest, hf, hconst⟩
      · exact ho'.ahead.ended hended
      · obtain ⟨f', rest', hf', hcell⟩ := htop'
        rw [hf] at hf'
        cases hf'
        rw [hcell] at hconst
        cases hconst
        exact absurd rfl ha
    · exact hseen d hd
  | fail d next ih =>
    obtain ⟨f, rest, rfl, hf⟩ := htop
    have hlost : clean f.cell → g.Lost f.cell := by
      rw [hf]
      exact hx.1
    apply runs_bind (runs_fail h hlost d)
    intro _ w' frames' h' ho _
    have hnever : clean.Whole → g.outline.Tells g.rules next tells :=
      fun hclean => (ht hclean).elim
    apply (ih hx.2 hnever h' (ho.tops ⟨f, rest, rfl, hf⟩) (by rw [ho.length]; exact hn)).mono
    rintro v w'' frames'' - ⟨hpost, -⟩
    exact ⟨hpost, fun hclean => (ht hclean).elim⟩
  | report d next ih =>
    apply runs_bind (runs_report h d)
    rintro _ w' frames h' - ⟨rfl, hreport⟩
    apply (ih hx (fun hc => (ht hc).2) h' htop hn).mono
    rintro v w'' frames'' - ⟨hpost, hbooks⟩
    refine ⟨hpost, fun hclean told hb => ?_⟩
    have hb' := hreport (ht hclean).1 none told hb
    obtain ⟨ds, seen, htells, hb'', hseen⟩ := hbooks hclean _ hb'
    refine ⟨d ::ₘ ds, seen, htells, ?_, hseen⟩
    rw [Multiset.add_assoc, Multiset.singleton_add] at hb''
    exact hb''
  | stop e => exact hx.elim
  | malformed => exact hx.elim

/-- What has become of the operands by the time a constant is solved. A constant that owes a
failure has been accused. -/
theorem runs_operands {owes : Bool} {rest : List NodeId}
    (hx : x.Meets (clean.terms .constant id) post)
    (hfollows : x.Follows (g.subject.circle id) owes rest)
    (h : g.Inv clean w frames) (htop : Tops frames ⟨.standard .constant, id⟩)
    (hn : 8 * g.outline.size ≤ frames.length + n) :
    g.Runs clean w frames (g.subject.solve x) fun v w' frames' => post v ∧
      (clean.Whole → ∀ told, g.Books w frames (if owes then some id else none) told →
        g.Books w' frames' none told ∧ (owes = true → w'.verdict? id = some false) ∧
          ∀ dep ∈ rest, g.Traced w'.verdict? dep) := by
  induction x generalizing w frames owes rest with
  | done v =>
    obtain ⟨rfl, rfl⟩ := hfollows
    exact runs_pure h ⟨hx, fun _ told hb => ⟨hb, nofun, nofun⟩⟩
  | probe b m next ih =>
    obtain ⟨hask, hnext⟩ := hx
    obtain ⟨rfl, rfl, later, rfl, hlater⟩ := hfollows
    apply runs_bind (runs_ask henter hask h htop hn)
    rintro p w' frames' h' ho ⟨hp, hread⟩
    have htop' := ho.tops htop
    apply (ih p (hnext p hp) (hlater p) h' htop'
      (by rw [ho.length]; exact hn)).mono
    rintro v w'' frames'' ho' ⟨hpost, hbooks⟩
    refine ⟨hpost, fun hclean told hb => ?_⟩
    have hrecorded := (hread hclean).recorded trivial told hb
    cases hcyclic : p.isCyclic with
    | false =>
      rw [hcyclic] at hbooks
      obtain ⟨hb', htraced⟩ := hrecorded.found hcyclic
      obtain ⟨hb'', -, hrest⟩ := hbooks hclean told hb'
      refine ⟨hb'', nofun, fun dep hdep => ?_⟩
      rcases List.mem_cons.1 hdep with rfl | hdep
      · exact (htraced rfl).mono fun _ _ => ho'.ahead.verdict?
      · exact hrest dep hdep
    | true =>
      rw [hcyclic] at hbooks
      obtain ⟨f, rest, rfl, -, hb', hent⟩ := hrecorded.cyclic hcyclic
      obtain ⟨f', rest', heq, hf⟩ := htop'
      cases heq
      rw [hf] at hb' hent
      obtain ⟨hb'', hblamed, hrest⟩ := hbooks hclean told hb'
      refine ⟨hb'', nofun, fun dep hdep => ?_⟩
      rcases List.mem_cons.1 hdep with rfl | hdep
      · exact .inl ⟨id, hblamed rfl, hent⟩
      · exact hrest dep hdep
  | fail d next ih =>
    obtain ⟨rfl, rfl, hnext⟩ := hfollows
    obtain ⟨f, below, rfl, hf⟩ := htop
    have hlost : clean f.cell → g.Lost f.cell := by
      rw [hf]
      exact hx.1
    apply runs_bind (runs_fail h hlost _)
    rintro _ w' frames' h' ho ⟨-, hfail⟩
    apply (ih hx.2 hnext h' (ho.tops ⟨f, below, rfl, hf⟩) (by rw [ho.length]; exact hn)).mono
    rintro v w'' frames'' ho' ⟨hpost, hbooks⟩
    refine ⟨hpost, fun hclean told hb => ?_⟩
    obtain ⟨hb', hblamed⟩ := hfail id hf rfl told hb
    obtain ⟨hb'', -, hrest⟩ := hbooks hclean told hb'
    exact ⟨hb'', fun _ => ho'.ahead.verdict? hblamed, hrest⟩
  | report d next => exact hfollows.elim
  | stop e => exact hx.elim
  | malformed => exact hx.elim

end

/-! ## Running a unit -/

/-- The world after the topmost unit, which has written to its own cell at most, has been
settled. -/
def settled (w : World Attribute.schema) (f : Frame Attribute.schema) (status : Status)
    (origin : Option Nat) (event : Event) : World Attribute.schema :=
  (w.modifyScheduler Analysis.home fun s => s.settle f.unit status).note origin event

theorem Inv.edited_settled (h : g.Inv clean w (f :: frames)) (status : Status)
    (he : World.Edited f.cell w w') (hstage : w'.stage f.cell = w.stage f.cell)
    (origin : Option Nat) (event : Event) :
    World.Edited f.cell w (settled w' f status origin event) ∧
      (settled w' f status origin event).stage f.cell = some status ∧
      (status.isTerminal = true → ∀ x ∈ (settled w' f status origin event).ledger.pending,
        x.2.rule ≠ f.cell) := by
  have hw : g.Wired w' := h.wired.edit_content he hstage
  have hheld : w'.resolver? f.cell = some f.unit := by
    rw [he.resolver]
    exact h.stacked.held f List.mem_cons_self
  obtain ⟨hsettle, hstatus⟩ := hw.restage_settle hheld status
  exact ⟨(he.trans hsettle).trans (World.edited_note f.cell _ origin event), hstatus,
    fun ht => hw.pending_settle hheld ht⟩

/-- Nothing that has ended is undone when the topmost unit is settled. -/
theorem Inv.ahead_settled (h : g.Inv clean w (f :: frames)) (status : Status)
    (he : World.Edited f.cell w w') (hstage : w'.stage f.cell = w.stage f.cell)
    (hdoomed : f.doomed = true → status = .fail) (origin : Option Nat) (event : Event) :
    w.Ahead (settled w' f status origin event) := by
  obtain ⟨hall, hstatus, -⟩ := h.edited_settled status he hstage origin event
  apply hall.ahead
  · intro status' hs ht
    rw [h.stacked.not_terminal hs] at ht
    cases ht
  · intro b hb
    obtain ⟨status', hs, hrun, hiff⟩ := h.stacked.running f List.mem_cons_self
    rw [hs] at hb
    rw [hstatus]
    cases status' with
    | runningWillFail =>
      rw [hdoomed (hiff.1 rfl)]
      exact hb
    | running | runningRecursive => cases hb
    | new | success | fail => cases hrun

theorem Inv.close (h : g.Inv clean w (f :: frames)) (status : Status)
    (hclean : ∀ c, clean' c → clean c)
    (he : World.Edited f.cell w w') (hstage : w'.stage f.cell = w.stage f.cell)
    (hidle : status.isRunning = false) (hdoomed : f.doomed = true → status = .fail)
    (hfilled : status = .success → (w'.content f.cell).isForced = true)
    (hsoft : ∀ v, w'.content f.cell = .soft v → f.cell.family = .standard .constant)
    (hforced : ∀ v, w'.content f.cell = .forced v →
      status = .success ∨ status = .fail ∧ v = f.cell.family.sentinel)
    (hexact : clean' f.cell → ∀ v, (w'.content f.cell).value? = some v → v = g.value f.cell)
    (hfailed : clean' f.cell → status = .fail → g.Lost f.cell) (origin : Option Nat)
    (event : Event) :
    g.Inv clean' (settled w' f status origin event) frames ∧
      w.Ahead (settled w' f status origin event) := by
  obtain ⟨hall, hstatus, hpending⟩ := h.edited_settled status he hstage origin event
  exact ⟨h.settle hclean hall hstatus hidle hpending hfilled hsoft hforced hexact hfailed,
    h.ahead_settled status he hstage hdoomed origin event⟩

theorem Inv.ledger_settled (h : g.Inv clean w (f :: frames)) (he : World.Edited f.cell w w')
    (hledger : w'.ledger = w.ledger) (status : Status) (origin : Option Nat) (event : Event) :
    (settled w' f status origin event).ledger = w.ledger.settle f.unit status := by
  rw [← hledger]
  refine World.ledger_modifyScheduler ?_ _
  rw [he.sessions]
  exact h.wired.session

theorem Inv.not_ended (h : g.Inv clean w (f :: frames)) : w.ended f.cell = false := by
  obtain ⟨status, hstatus, -⟩ := h.stacked.running f List.mem_cons_self
  rw [World.ended_of_stage hstatus, h.stacked.not_terminal hstatus]

/-- What the books are when the topmost unit is done: it has told what is due, what it
needs has ended, and if it is a constant, its operands have been followed. -/
structure Due (g : Scene) (c : CellKey) (w : World Attribute.schema)
    (frames : List (Frame Attribute.schema)) (told : Multiset Diagnostic) : Prop where
  books : g.Books w frames none (told + g.dues c)
  needs : ∀ d ∈ g.needs c, w.ended d = true
  operands : c.family = .standard .constant → ∀ dep, g.tree.Depends c.node dep →
    g.Traced w.verdict? dep

/-- The topmost unit has told what is due, and what it has found stays. -/
theorem Inv.books_settled (h : g.Inv clean w (f :: frames)) {status : Status}
    (he : World.Edited f.cell w w') (hstage : w'.stage f.cell = w.stage f.cell)
    (hledger : w'.ledger = w.ledger) (hstatus : status = if f.doomed then .fail else .success)
    (hforced : (w'.content f.cell).isForced = true) (origin : Option Nat) (event : Event)
    {told : Multiset Diagnostic} (hdue : g.Due f.cell w (f :: frames) told) :
    g.Books (settled w' f status origin event) frames none told := by
  obtain ⟨hall, hsettled, -⟩ := h.edited_settled status he hstage origin event
  have hledger' := h.ledger_settled he hledger status origin event
  have hbuffer : (settled w' f status origin event).ledger.buffer = w.ledger.buffer := by
    rw [hledger']
    rfl
  constructor
  · have hnode := (h.wired.serves _ _ (h.stacked.held f List.mem_cons_self)).node_lt
    refine hdue.books.kept.settle hdue.needs hall ?_ hbuffer hnode h.not_ended ?_ hforced
    · rw [hledger']
      rfl
    · rw [World.ended_of_stage hsettled, hstatus]
      split
      · rfl
      · rfl
  · rw [World.circles, hbuffer]
    by_cases hconst : f.cell.family = .standard .constant
    · have hbefore := h.stacked.verdict? List.mem_cons_self hconst
      rw [hall.verdict hconst hsettled, hstatus]
      cases hd : f.doomed with
      | true =>
        -- The verdict was there before.
        rw [hd] at hbefore
        rw [show (if true = true then Status.fail else Status.success).verdict? =
          w.verdict? f.cell.node from hbefore.symm, Function.update_eq_self]
        exact hdue.books.circles.pop
      | false =>
        rw [hd] at hbefore
        exact (hdue.books.circles.clear hbefore (hdue.operands hconst)).pop
    · rw [hall.verdict_of_ne hconst]
      exact hdue.books.circles.pop

/-- A constant on a cycle has nothing to tell and stays open. -/
theorem Inv.books_reopened (h : g.Inv clean w (f :: frames)) (he : World.Edited f.cell w w')
    (hstage : w'.stage f.cell = w.stage f.cell) (hledger : w'.ledger = w.ledger)
    (hconst : f.cell.family = .standard .constant) (hdoomed : f.doomed = false)
    (hhead : f.head.isSome = true) (hforced : (w'.content f.cell).isForced = false)
    (origin : Option Nat) (event : Event) {told : Multiset Diagnostic}
    (hdue : g.Due f.cell w (f :: frames) told) :
    g.Books (settled w' f .new origin event) frames none told ∧
      g.Traced (settled w' f .new origin event).verdict? f.cell.node := by
  have hbooks := hdue.books
  rw [dues_constant hconst, Multiset.add_zero] at hbooks
  obtain ⟨hall, hsettled, -⟩ := h.edited_settled .new he hstage origin event
  have hledger' := h.ledger_settled he hledger .new origin event
  have hverdict : (settled w' f .new origin event).verdict? = w.verdict? := by
    have hbefore := h.stacked.verdict? List.mem_cons_self hconst
    rw [hdoomed] at hbefore
    rw [hall.verdict hconst hsettled, show Status.new.verdict? = w.verdict? f.cell.node from
      hbefore.symm, Function.update_eq_self]
  have hcalm : World.Calm w (settled w' f .new origin event) := by
    refine ⟨hall.steady ?_ ?_ ?_ ?_, hverdict⟩
    · rw [hledger']
      rfl
    · rw [hledger']
      rfl
    · rw [World.ended_of_stage hsettled, h.not_ended]
      rfl
    · rw [hbooks.kept.not_forced h.not_ended]
      exact hforced
  have hopen := hbooks.calm hcalm
  refine ⟨⟨hopen.kept, hopen.circles.pop⟩, ?_⟩
  obtain ⟨m, hm, hent⟩ := hopen.circles.tied f List.mem_cons_self hhead
  exact .inl ⟨m, hm.resolve_right nofun, hent⟩

theorem Inv.close_error (h : g.Inv (clean.spared w) w (f :: frames)) {x : Error}
    (hx : g.Excused x) (K : Multiset Diagnostic → Prop) (origin : Option Nat) :
    g.Entered clean f.cell K w frames (.error x) (w.closed Analysis.home origin f (.error x))
      frames := by
  have he := (World.Same.refl w).edited f.cell
  have ha : w.Ahead (w.closed Analysis.home origin f (.error x)) :=
    h.ahead_settled .fail he rfl (fun _ => rfl) origin (.finished f.unit.label .fail)
  have hfail : (w.closed Analysis.home origin f (.error x)).stage f.cell = some .fail :=
    (h.edited_settled .fail he rfl origin (.finished f.unit.label .fail)).2.1
  obtain ⟨hinv, -⟩ := h.close .fail (fun _ => Part.spared_of_ahead ha) he rfl rfl (fun _ => rfl)
    nofun (h.valued.soft f.cell) (fun v hv => absurd hv (h.not_forced List.mem_cons_self v))
    (fun hc => h.valued.agrees f.cell (Part.spared_of_ahead ha hc))
    (fun hc _ => lost_of_spared hc hfail) origin (.finished f.unit.label .fail)
  exact ⟨hx, hinv, ha, rfl⟩

/-- The topmost unit is doomed: it fails, and its cell gets the value of a failed one. -/
theorem Inv.close_doomed (h : g.Inv clean w (f :: frames)) (hd : f.doomed = true)
    (v : f.cell.family.Value) (origin origin' : Option Nat) :
    g.Entered clean f.cell (g.Due f.cell w (f :: frames)) w frames (.ok .fail)
      (settled ((w.soften origin f.cell v).force origin' f.cell f.cell.family.sentinel) f .fail
        origin' (.finished f.unit.label .fail)) frames := by
  have hlost : clean f.cell → g.Lost f.cell := fun hc =>
    h.valued.lost f List.mem_cons_self hc (by rw [hd, Bool.or_true])
  have he : World.Edited f.cell w
      ((w.soften origin f.cell v).force origin' f.cell f.cell.family.sentinel) :=
    ((World.edited_setValue w _).trans (World.edited_note f.cell _ origin _)).trans
      ((World.edited_setValue _ _).trans (World.edited_note f.cell _ origin' _))
  have hstage : ((w.soften origin f.cell v).force origin' f.cell
      f.cell.family.sentinel).stage f.cell = w.stage f.cell :=
    (World.stage_setValue f.cell f.cell _).trans (World.stage_setValue f.cell f.cell _)
  have hcontent : ((w.soften origin f.cell v).force origin' f.cell
      f.cell.family.sentinel).content f.cell = .forced f.cell.family.sentinel :=
    World.content_setValue_self f.cell _
  obtain ⟨hinv, ha⟩ := h.close .fail (fun _ hc => hc) he hstage rfl
    (fun _ => rfl) nofun (fun x hx => by rw [hcontent] at hx; cases hx)
    (fun x hx => by
      rw [hcontent] at hx
      cases hx
      exact .inr ⟨rfl, rfl⟩)
    (fun hc x hx => by
      rw [hcontent] at hx
      cases hx
      exact (hlost hc).symm)
    (fun hc _ => hlost hc) origin' (.finished f.unit.label .fail)
  refine ⟨hinv, ⟨ha, rfl⟩, (h.edited_settled .fail he hstage origin' _).2.1, ?_⟩
  exact fun _ told hdue => h.books_settled he hstage rfl (by rw [hd]; rfl)
    (by rw [hcontent]; rfl) origin' _ hdue

/-- The topmost unit is part of a cycle that goes on below: it stays open. -/
theorem Inv.close_open (h : g.Inv clean w (f :: frames)) (hd : f.doomed = false)
    (hh : f.head.isSome = true) {v : f.cell.family.Value} (hv : clean f.cell → v = g.value f.cell)
    (origin origin' : Option Nat) :
    g.Entered clean f.cell (g.Due f.cell w (f :: frames)) w frames (.ok .provisional)
      (settled ((w.soften origin f.cell v).setValue f.cell
          ((w.soften origin f.cell v).content f.cell).softened) f .new
        origin' (.finished f.unit.label .new)) frames := by
  obtain ⟨hconst, hbelow⟩ := h.stacked.linked.constant_below hh
  -- Softening a soft value writes the same value once more.
  have hwritten : ((w.soften origin f.cell v).setValue f.cell
      ((w.soften origin f.cell v).content f.cell).softened).content f.cell = .soft v := by
    rw [World.content_setValue_self, show (w.soften origin f.cell v).content f.cell = .soft v from
      World.content_setValue_self f.cell _]
    rfl
  have he := ((World.edited_setValue w (.soft v)).trans
    (World.edited_note f.cell _ origin (.softened f.cell.label))).trans
    (World.edited_setValue (w.soften origin f.cell v)
      ((w.soften origin f.cell v).content f.cell).softened)
  have hstage : ((w.soften origin f.cell v).setValue f.cell
      ((w.soften origin f.cell v).content f.cell).softened).stage f.cell = w.stage f.cell :=
    (World.stage_setValue f.cell f.cell _).trans (World.stage_setValue f.cell f.cell _)
  obtain ⟨hinv, ha⟩ := h.close .new (fun _ hc => hc) he hstage rfl
    (fun htrue => by rw [hd] at htrue; cases htrue) nofun (fun _ _ => hconst)
    (fun x hx => by rw [hwritten] at hx; cases hx)
    (fun hc x hx => by
      rw [hwritten] at hx
      cases hx
      exact hv hc)
    nofun origin' (.finished f.unit.label .new)
  refine ⟨hinv, ⟨ha, rfl⟩, ⟨hbelow, hconst, fun hc =>
    h.valued.lost f List.mem_cons_self hc (by rw [hh, Bool.true_or])⟩, fun _ told hdue => ?_⟩
  obtain ⟨hbooks, htraced⟩ := h.books_reopened he hstage rfl hconst hd hh
    (by rw [hwritten]; rfl) origin' (.finished f.unit.label .new) hdue
  refine ⟨hbooks, htraced, fun hunset => ?_⟩
  cases hwritten.symm.trans hunset

theorem Inv.close_success (h : g.Inv clean w (f :: frames)) (hd : f.doomed = false)
    {v : f.cell.family.Value} (hv : clean f.cell → v = g.value f.cell)
    (origin origin' : Option Nat) :
    g.Entered clean f.cell (g.Due f.cell w (f :: frames)) w frames (.ok .success)
      (settled (w.force origin f.cell v) f .success origin' (.finished f.unit.label .success))
      frames := by
  have he : World.Edited f.cell w (w.force origin f.cell v) :=
    (World.edited_setValue w _).trans (World.edited_note f.cell _ origin _)
  have hstage : (w.force origin f.cell v).stage f.cell = w.stage f.cell :=
    World.stage_setValue f.cell f.cell _
  have hcontent : (w.force origin f.cell v).content f.cell = .forced v :=
    World.content_setValue_self f.cell _
  obtain ⟨hinv, ha⟩ := h.close .success (fun _ hc => hc) he hstage rfl
    (fun htrue => by rw [hd] at htrue; cases htrue) (fun _ => by rw [hcontent]; rfl)
    (fun x hx => by rw [hcontent] at hx; cases hx) (fun _ _ => .inl rfl)
    (fun hc x hx => by
      rw [hcontent] at hx
      cases hx
      exact hv hc)
    nofun origin' (.finished f.unit.label .success)
  refine ⟨hinv, ⟨ha, rfl⟩, (h.edited_settled .success he hstage origin' _).2.1, ?_⟩
  exact fun _ told hdue => h.books_settled he hstage rfl (by rw [hd]; rfl)
    (by rw [hcontent]; rfl) origin' _ hdue

theorem Inv.close_ok (h : g.Inv clean w (f :: frames)) {v : f.cell.family.Value}
    (hv : clean f.cell → v = g.value f.cell) (origin origin' : Option Nat) :
    g.Entered clean f.cell (g.Due f.cell w (f :: frames)) w frames
      (.ok (Frame.outcome { f with fills := [f.cell] } (.ok ())).2)
      (World.closed (if (f.head.isSome || f.doomed) = true then w.soften origin f.cell v
        else w.force origin f.cell v) Analysis.home origin' { f with fills := [f.cell] } (.ok ()))
      frames := by
  unfold World.closed World.revised Frame.outcome
  cases hd : f.doomed with
  | true =>
    simp only [Bool.or_true, if_true]
    exact h.close_doomed hd v origin origin'
  | false =>
    cases hh : f.head.isSome with
    | true =>
      simp only [Bool.or_false, if_true, Bool.false_eq_true, if_false]
      exact h.close_open hd hh hv origin origin'
    | false =>
      simp only [Bool.or_false, Bool.false_eq_true, if_false]
      exact h.close_success hd hv origin origin'

theorem Inv.leaves_ok (h : g.Inv clean w (f :: frames)) (v : f.cell.family.Value)
    (origin origin' : Option Nat) :
    g.watch.leaves (World.revised (if (f.head.isSome || f.doomed) = true then
        w.soften origin f.cell v else w.force origin f.cell v) origin' { f with fills := [f.cell] }
        (.ok ())) { f with fills := [f.cell] } (.ok ()) := by
  intro hne
  have hhead : f.head.isSome = false := by
    cases hh : f.head.isSome with
    | false => rfl
    | true => exact absurd (h.stacked.linked.constant_below hh).1 hne
  have hforced : ∀ (w' : World Attribute.schema) (x x' : f.cell.family.Value),
      (w'.force origin f.cell x).content f.cell ≠ .soft x' := by
    intro w' x x' hsoft
    rw [show (w'.force origin f.cell x).content f.cell = .forced x from
      World.content_setValue_self f.cell _] at hsoft
    cases hsoft
  unfold World.revised Frame.outcome
  cases hd : f.doomed with
  | true =>
    simp only [hhead, Bool.or_true, if_true]
    exact ⟨nofun, hforced _ _⟩
  | false =>
    simp only [hhead, Bool.or_false, Bool.false_eq_true, if_false]
    exact ⟨nofun, hforced _ _⟩

theorem Inv.leaves_error (h : g.Inv clean w (f :: frames)) (x : Error) (origin : Option Nat) :
    g.watch.leaves (w.revised origin f (.error x)) f (.error x) :=
  fun hne => ⟨nofun, fun v hv => hne (h.valued.soft f.cell v hv)⟩

def Closing (g : Scene) (clean : g.Part) (c : CellKey) (K : Multiset Diagnostic → Prop)
    (w : World Attribute.schema) (frames : List (Frame Attribute.schema))
    (result : Except Error Unit) (w' : World Attribute.schema)
    (frames' : List (Frame Attribute.schema)) : Prop :=
  ∃ f rest, frames' = f :: rest ∧ (∀ d ∈ f.fills, (w'.cell d).hooks = []) ∧
    ∀ origin, g.watch.leaves (w'.revised origin f result) f result ∧
      g.Entered clean c K w frames (result.map fun _ => (f.outcome result).2)
        (w'.closed Analysis.home origin f result) rest

theorem gives_deliver_own (h : g.Inv clean w (f :: frames)) (hf : f.cell = c) {v : c.family.Value}
    (hv : clean c → v = g.value c) :
    Gives g.model g.watch Analysis.home w (f :: frames)
      (liftM (Action.deliver c v : Action Attribute.schema Unit) : Eval Unit).run
      (g.Closing clean c (g.Due c w (f :: frames)) w frames) := by
  subst hf
  have hfills := h.stacked.fills f List.mem_cons_self
  apply gives_bind
  apply gives_deliver (h.stacked.held f List.mem_cons_self) (h.wired.hooks f.cell)
  intro origin
  apply gives_pure
  refine ⟨{ f with fills := [f.cell] }, frames, ?_, fun d _ => ?_, fun origin' =>
    ⟨h.leaves_ok v origin origin', h.close_ok hv origin origin'⟩⟩
  · rw [hfills]
    rfl
  · split
    · exact (World.hooks_setValue f.cell d _).trans (h.wired.hooks d)
    · exact (World.hooks_setValue f.cell d _).trans (h.wired.hooks d)

/-- A unit that has just been claimed computes the value of its cell and tells what is
due. -/
theorem runs_cellEquation (hs : g.outline.Shaped) (henter : g.Enters n)
    (h : g.Inv clean w (f :: frames)) (hf : f.cell = c) (hfresh : f.doomed = false)
    (hn : 8 * g.outline.size ≤ (f :: frames).length + n) :
    g.Runs clean w (f :: frames) (g.subject.solve (g.subject.cellEquation c)) fun v w' frames' =>
      (clean c → v = g.value c) ∧
        (clean.Whole → ∀ told, g.Books w (f :: frames) none told → g.Due c w' frames' told) := by
  have hheld := h.stacked.held f List.mem_cons_self
  have hnode := (h.wired.serves _ _ hheld).node_lt
  rw [hf] at hnode
  obtain ⟨family, id⟩ := c
  cases family with
  | word a =>
    refine runs_pure h ⟨fun _ => rfl, fun _ told hb => ⟨?_, List.forall_mem_nil _, nofun⟩⟩
    exact (Multiset.add_zero told).symm ▸ hb
  | standard a =>
    have hmeets := equation_meets_terms hs clean a hnode
    by_cases ha : a = .constant
    · subst ha
      apply (runs_operands henter hmeets (g.subject.follows_constant id) h ⟨f, frames, rfl, hf⟩
        hn).mono
      rintro v w' frames' - ⟨hv, hbooks⟩
      refine ⟨hv, fun hclean told hb => ?_⟩
      obtain ⟨hb', -, hoperands⟩ := hbooks hclean told hb
      exact ⟨(Multiset.add_zero told).symm ▸ hb', List.forall_mem_nil _, fun _ => hoperands⟩
    · have hne : f.cell.family ≠ .standard .constant := by
        rw [hf]
        exact fun heq => ha (Family.standard.inj heq)
      have hopen : (⟨.standard a, id⟩ : CellKey).family = .standard .constant → ∀ {P : Prop}, P :=
        fun heq => absurd (Family.standard.inj heq) ha
      rcases Outline.equation_discloses (r := g.rules) hs ha hnode with
        ⟨d, v, hequation, hkind, hdue, hneeds⟩ | htells
      · -- The equation does nothing but fail.
        change g.Runs clean w (f :: frames)
          (g.subject.solve ((g.outline.subject g.rules).equation a id)) _
        rw [hequation] at hmeets ⊢
        have hlost : clean f.cell → g.Lost f.cell := by
          rw [hf]
          exact hmeets.1
        apply runs_bind (runs_fail h hlost d)
        rintro _ w' frames' h' - ⟨hfail, -⟩
        refine runs_pure h' ⟨hmeets.2, fun _ told hb => ⟨?_, ?_, fun heq => hopen heq⟩⟩
        · have hb' := hfail hne hfresh hkind told hb
          rw [← hdue] at hb'
          exact hb'
        · rw [show g.needs ⟨.standard a, id⟩ = [] from hneeds]
          exact List.forall_mem_nil _
      · apply (runs_solve henter hmeets ha (fun _ => htells) h ⟨f, frames, rfl, hf⟩ hn).mono
        rintro v w' frames' - ⟨hv, hbooks⟩
        refine ⟨hv, fun hclean told hb => ?_⟩
        obtain ⟨ds, seen, ⟨rfl, hsub⟩, hb', hseen⟩ := hbooks hclean told hb
        exact ⟨hb', fun d hd => hseen d (hsub hd), fun heq => hopen heq⟩

theorem gives_body (hs : g.outline.Shaped) (henter : g.Enters n) (h : g.Inv clean w (f :: frames))
    (hf : f.cell = c) (hfresh : f.doomed = false)
    (hn : 8 * g.outline.size ≤ (f :: frames).length + n) :
    Gives g.model g.watch Analysis.home w (f :: frames) (g.model.body c)
      (g.Closing clean c (g.Books w (f :: frames) none) w frames) := by
  have herror : ∀ e w' frames', g.Excused e → g.Inv (clean.spared w') w' frames' →
      Onward w (f :: frames) w' frames' →
      g.Closing clean c (g.Books w (f :: frames) none) w frames (.error e) w' frames' := by
    intro e w' frames' he h' ho
    obtain ⟨f', rest, rfl, -, -⟩ := List.map_eq_cons_iff.1 ho.units
    refine ⟨f', rest, rfl, fun d _ => h'.wired.hooks d, fun origin => ?_⟩
    obtain ⟨hx, hinv, ho'⟩ := h'.close_error he (g.Books w (f :: frames) none) origin
    exact ⟨h'.leaves_error e origin, hx, hinv, ho.tail.trans ho'⟩
  show Gives g.model g.watch Analysis.home w (f :: frames) (g.subject.resolve c).run _
  unfold Subject.resolve
  apply gives_run_bind (runs_slots h) _ herror
  rintro _ w frames' - - ⟨rfl, rfl, rfl⟩
  rw [if_neg (by rw [h.wired.attached]; exact Bool.false_ne_true)]
  apply gives_run_bind (runs_cellEquation hs henter h hf hfresh hn) _ herror
  rintro v w' frames' h' ho ⟨hv, hdue⟩
  obtain ⟨f', rest, rfl, hunit, -⟩ := List.map_eq_cons_iff.1 ho.units
  have hf' : f'.cell = c := (congrArg WorkUnit.rule hunit).trans hf
  apply Gives.mono (gives_deliver_own h' hf' hv)
  rintro result w'' frames'' ⟨f'', rest', hrest, hooks, hentered⟩
  exact ⟨f'', rest', hrest, hooks, fun origin =>
    ⟨(hentered origin).1, (hentered origin).2.onward ho.tail hdue⟩⟩

/-- The cells of the units on the stack leave room for a cell that is not there. -/
theorem Inv.length_lt (h : g.Inv clean w frames) (hu : w.resolver? c = some u)
    (hoff : ∀ f ∈ frames, f.cell ≠ c) : frames.length < 8 * g.outline.size := by
  have hnodup : (c :: frames.map Frame.cell).Nodup := by
    rw [List.nodup_cons]
    refine ⟨fun hmem => ?_, h.stacked.nodup⟩
    obtain ⟨f, hf, heq⟩ := List.mem_map.1 hmem
    exact hoff f hf heq
  have hle := h.wired.length_le hnodup fun d hd => by
    rcases List.mem_cons.1 hd with rfl | hd
    · exact ⟨u, hu⟩
    · obtain ⟨f, hf, rfl⟩ := List.mem_map.1 hd
      exact ⟨f.unit, h.stacked.held f hf⟩
  rw [List.length_cons, List.length_map] at hle
  exact hle

theorem answers_clear (hs : g.outline.Shaped) (henter : ∀ k, n = k + 1 → g.Enters k)
    (h : g.Inv clean w frames) (hu : w.resolver? c = some u) (hasks : g.Asks frames c)
    (hn : 8 * g.outline.size ≤ frames.length + n) (hclear : Clear w.ledger frames u) :
    Answers g.model g.watch Analysis.home w frames (.unit u)
      (g.Entered clean c (g.Books w frames none) w frames) := by
  have hnew : w.stage c = some .new := (World.stage_eq hu).trans hclear.new
  have hlt := h.length_lt hu (h.stacked.off_of_idle hnew rfl)
  by_cases hdeep : w.ledger.limits.maxDepth ≤ frames.length
  · apply answers_tooDeep (h.enters hu hasks) hclear hdeep
    refine ⟨.inr ⟨u.label, ?_, ?_⟩, h.mono fun _ hc => hc.1, .refl w frames⟩
    · rw [show (w.scheduler Analysis.home).limits.maxDepth = g.depth from h.wired.limit]
    · rw [← h.wired.limit]
      exact Nat.lt_of_le_of_lt hdeep hlt
  · obtain ⟨k, rfl⟩ : ∃ k, n = k + 1 := ⟨n - 1, by omega⟩
    apply answers_granted (h.enters hu hasks) hclear (Nat.lt_of_not_le hdeep)
    intro origin owner
    obtain ⟨he, hrunning⟩ := h.wired.restage_claim hu owner
    have hall := he.trans (World.edited_note c _ origin (.started u.label u.id))
    have hinv := h.claim hu hnew hasks hall hrunning rfl
    have ha := hall.ahead_of_new hnew
    have hrule : u.rule = c := (h.wired.serves c u hu).rule
    have hroom : 8 * g.outline.size ≤
        (({ unit := u } : Frame Attribute.schema) :: frames).length + k := by
      rw [List.length_cons]
      omega
    rw [show (u.rule : Attribute.schema.Rule) = c from hrule]
    have hcalm : World.Calm w ((w.modifyScheduler Analysis.home fun s => s.claim u.id owner).note
        origin (.started u.label u.id)) :=
      .trans ⟨h.wired.steady_restage he rfl rfl hnew rfl hrunning rfl,
        he.verdict_of_eq hnew hrunning rfl⟩ (World.calm_note _ _ _)
    apply Gives.mono (gives_body hs (henter k rfl) hinv hrule rfl hroom)
    rintro result w' frames' ⟨f, rest, hrest, hooks, hentered⟩
    exact ⟨f, rest, hrest, hooks, fun origin' => ⟨(hentered origin').1,
      (hentered origin').2.onward ⟨ha, rfl⟩ fun _ _ hb =>
        ⟨(hb.calm hcalm).kept, (hb.calm hcalm).circles.push rfl rfl⟩⟩⟩

/-! ## Units that are not new -/

theorem Inv.exists_split (h : g.Inv clean w frames) (hu : w.resolver? c = some u)
    (hmem : ∃ f ∈ frames, f.cell = c) : ∃ above e below, frames = above ++ e :: below ∧
      e.cell = c ∧ Frame.indexOf? u.id frames = some below.length := by
  cases hindex : Frame.indexOf? u.id frames with
  | none =>
    obtain ⟨f, hf, hcell⟩ := hmem
    have hheld := h.stacked.held f hf
    rw [hcell, hu] at hheld
    cases hheld
    exact absurd rfl (Frame.indexOf?_eq_none_iff.1 hindex f hf)
  | some index =>
    obtain ⟨above, e, below, rfl, hid, rfl⟩ := Frame.exists_of_indexOf? hindex
    have hheld := h.stacked.held e (List.mem_append_right _ List.mem_cons_self)
    exact ⟨above, e, below, rfl, h.wired.distinct _ _ _ _ hheld hu hid, rfl⟩

/-- Who asks for a unit on the stack is a constant, and so is the unit. -/
theorem Inv.settles_again {above below : List (Frame Attribute.schema)}
    {e : Frame Attribute.schema} (h : g.Inv clean w (above ++ e :: below))
    (hasks : g.Asks (above ++ e :: below) e.cell) :
    (∃ f rest, above ++ e :: below = f :: rest ∧ f.cell.family = .standard .constant) ∧
      e.cell.family = .standard .constant ∧ g.Lost e.cell := by
  have hlost := h.stacked.linked.lost_of_asked hasks
  refine ⟨?_, hlost e List.mem_cons_self⟩
  cases above with
  | nil => exact ⟨e, below, rfl, (hlost e List.mem_cons_self).1⟩
  | cons t rest =>
    exact ⟨t, rest ++ e :: below, rfl, (hlost t (List.mem_cons_of_mem _ List.mem_cons_self)).1⟩

theorem Inv.booked_cycle {above below : List (Frame Attribute.schema)}
    {e : Frame Attribute.schema} (h : g.Inv clean w (above ++ e :: below))
    (hasks : g.Asks (above ++ e :: below) e.cell) (hcalm : World.Calm w w')
    (hopen : w'.ended e.cell = false) {told : Multiset Diagnostic}
    (hb : g.Books w (above ++ e :: below) none told) :
    g.Booked e.cell w' (Frame.joinCycleAbove below.length (above ++ e :: below)) told .cycle := by
  have hl := h.stacked.linked
  have hdoomed : ∀ f ∈ above ++ [e], w.verdict? f.cell.node = some false → f.doomed = true := by
    intro f hf hv
    have hmem : f ∈ above ++ e :: below := by
      rw [List.append_cons]
      exact List.mem_append_left _ hf
    rw [h.stacked.verdict? hmem (hl.entangled_of_asked hasks hf).1] at hv
    by_contra hd
    rw [if_neg hd] at hv
    cases hv
  rw [Frame.joinCycleAbove_append above e rfl]
  refine ⟨hopen, ?_⟩
  have hbooks : ∀ f rest, above ++ e :: below = f :: rest → g.Books w'
      (above.map (Frame.joinCycle below.length) ++ e :: below) (some f.cell.node) told :=
    fun f rest htop =>
      Books.calm ⟨hb.kept, hb.circles.rejoin hl hasks h.stacked.nodup hdoomed htop⟩ hcalm
  cases above with
  | nil => exact ⟨e, below, rfl, hbooks e below rfl, .refl _⟩
  | cons t rest =>
    exact ⟨t.joinCycle below.length, _, rfl, hbooks t _ rfl,
      (hl.entangled_of_asked hasks List.mem_cons_self).2⟩

theorem answers_again (h : g.Inv clean w frames) (hu : w.resolver? c = some u)
    (hasks : g.Asks frames c) {status : Status} (hs : w.stage c = some status)
    (hrun : status.isRunning = true) :
    Answers g.model g.watch Analysis.home w frames (.unit u)
      (g.Entered clean c (g.Books w frames none) w frames) := by
  obtain ⟨above, e, below, rfl, rfl, hindex⟩ :=
    h.exists_split hu (h.stacked.on_stack c status hs hrun)
  have hstatus : w.ledger.status? u.id = some status := (World.stage_eq hu).symm.trans hs
  obtain ⟨htop, hconst, hlost⟩ := h.settles_again hasks
  by_cases hfail : status = .runningWillFail
  · subst hfail
    apply answers_failing (h.enters hu hasks) hindex hstatus
    exact ⟨h, .refl w _, ⟨htop, hconst, fun _ => hlost⟩, fun _ _ hb =>
      ⟨hb, hb.circles.traced (World.verdict?_of_stage hconst hs)⟩⟩
  · have hne : w.ledger.status? u.id ≠ some .runningWillFail := by
      rw [hstatus]
      exact fun heq => hfail (Option.some.inj heq)
    apply answers_cycle (h.enters hu hasks) hindex hne
    intro origin event
    obtain ⟨he, hstage⟩ := h.wired.restage_setStatus hu .runningRecursive
    have hall := he.trans (World.edited_note e.cell _ origin event)
    have hinv := h.rejoin hasks rfl (by rw [hs]; exact fun heq => hfail (Option.some.inj heq)) hall
      rfl hstage
    have hunits : (Frame.joinCycleAbove below.length (above ++ e :: below)).map Frame.unit =
        (above ++ e :: below).map Frame.unit := by
      rw [Frame.joinCycleAbove_append above e rfl, List.map_append, List.map_append, List.map_map]
      rfl
    obtain ⟨hidle, hundecided⟩ : status.isTerminal = false ∧ status.verdict? = none := by
      cases status with
      | success | fail => cases hrun
      | runningWillFail => exact absurd rfl hfail
      | _ => exact ⟨rfl, rfl⟩
    have ha := hall.ahead
      (fun status' hs' ht => by
        rw [hs] at hs'
        cases hs'
        rw [hidle] at ht
        cases ht)
      (fun b hb => by
        rw [hs] at hb
        cases hundecided.symm.trans hb)
    have hcalm : World.Calm w ((w.modifyScheduler Analysis.home fun s =>
        s.setStatus u.id .runningRecursive).note origin event) :=
      .trans ⟨h.wired.steady_restage he rfl rfl hs hidle hstage rfl,
        he.verdict_of_eq hs hstage hundecided.symm⟩ (World.calm_note _ _ _)
    refine ⟨hinv, ⟨ha, hunits⟩, ⟨?_, hconst, fun _ => hlost⟩, fun _ _ hb =>
      h.booked_cycle hasks hcalm (World.ended_of_stage hstage) hb⟩
    obtain ⟨t, rest, hframes, htop⟩ := htop
    rw [hframes] at hunits
    obtain ⟨t', rest', hframes', hunit, -⟩ := List.map_eq_cons_iff.1 hunits
    have hcell : t'.cell = t.cell := congrArg WorkUnit.rule hunit
    rw [← hframes] at hframes'
    exact ⟨t', rest', hframes', by rw [hcell]; exact htop⟩

theorem answers_of_new (h : g.Inv clean w frames) (hu : w.resolver? c = some u)
    (hasks : g.Asks frames c)
    (hnew : w.stage c = some .new → Frame.indexOf? u.id frames = none →
      Answers g.model g.watch Analysis.home w frames (.unit u)
        (g.Entered clean c (g.Books w frames none) w frames)) :
    Answers g.model g.watch Analysis.home w frames (.unit u)
      (g.Entered clean c (g.Books w frames none) w frames) := by
  obtain ⟨status, hs⟩ := h.wired.exists_stage hu
  have hstatus : w.ledger.status? u.id = some status := (World.stage_eq hu).symm.trans hs
  have hoff : status.isRunning = false → Frame.indexOf? u.id frames = none := fun hidle =>
    h.stacked.indexOf?_eq_none hu hs hidle h.wired
  cases status with
  | new => exact hnew hs (hoff rfl)
  | success =>
    exact answers_success (h.enters hu hasks) (hoff rfl) hstatus
      ⟨h, .refl w frames, hs, fun _ _ hb => hb⟩
  | fail =>
    exact answers_fail (h.enters hu hasks) (hoff rfl) hstatus
      ⟨h, .refl w frames, hs, fun _ _ hb => hb⟩
  | running | runningRecursive | runningWillFail => exact answers_again h hu hasks hs rfl

/-! ## Barriers -/

theorem Wired.phase_eq (h : g.Wired w) (hu : w.resolver? c = some u) {p : Phase}
    (hp : u.phase = some p) : c.family = .standard c.family.attr ∧ c.family.attr.phase = p := by
  rw [(h.serves c u hu).phase] at hp
  obtain ⟨family, id⟩ := c
  cases family with
  | standard a => exact ⟨rfl, Option.some.inj hp⟩
  | word a => cases hp

structure Stands (g : Scene) (w : World Attribute.schema) (frames : List (Frame Attribute.schema))
    (c d : CellKey) (v : WorkUnit CellKey) : Prop where
  resolver : w.resolver? d = some v
  lower : d.family.attr.phase < c.family.attr.phase
  asks : g.Asks frames d
  new : w.stage d = some .new
  off : Frame.indexOf? v.id frames = none

theorem Inv.stands (h : g.Inv clean w frames) (hasks : g.Asks frames c)
    {x : Phase × WorkUnit CellKey} (hx : x ∈ w.ledger.earlierUnits c.family.attr.phase) :
    g.Stands w frames c x.2.rule x.2 := by
  obtain ⟨hpending, hlt⟩ := w.ledger.mem_earlierUnits.1 hx
  obtain ⟨hres, hphase, hopen⟩ := h.wired.pending x.1 x.2 hpending
  obtain ⟨hstandard, hp⟩ := h.wired.phase_eq hres hphase
  rw [← hp] at hlt
  obtain ⟨status, hs⟩ := h.wired.exists_stage hres
  have hidle : status.isRunning = false := by
    cases hrun : status.isRunning with
    | false => rfl
    | true =>
      -- A unit on the stack would have led to one of a higher phase.
      obtain ⟨f, hf, hcell⟩ := h.stacked.on_stack _ status hs hrun
      have hle := phase_le_of_under (h.stacked.linked.path hasks hf)
      rw [hcell] at hle
      exact absurd hlt (Nat.not_lt.2 hle)
  have hnew : status = .new := by
    have hopen := hopen status hs
    cases status with
    | new => rfl
    | success | fail => cases hopen
    | _ => cases hidle
  subst hnew
  refine ⟨hres, hlt, fun f rest hframes => ?_, hs, h.stacked.indexOf?_eq_none hres hs rfl h.wired⟩
  exact (hasks f rest hframes).earlier hstandard (h.wired.serves _ _ hres).node_lt hlt

theorem Settles.terminal {d : CellKey} {outcome : Attempt} (hs : g.Settles clean d w frames outcome)
    (hasks : g.Asks frames c) (hlt : d.family.attr.phase < c.family.attr.phase) :
    (outcome = .success ∨ outcome = .fail) ∧
      ∃ status, w.stage d = some status ∧ status.isTerminal = true := by
  have hno : ¬∃ f rest, frames = f :: rest ∧ f.cell.family = .standard .constant := by
    rintro ⟨f, rest, hframes, hconst⟩
    have hle := phase_le_of_under (.single (hasks f rest hframes))
    rw [hconst] at hle
    exact absurd (Nat.lt_of_lt_of_le hlt hle) (Nat.not_lt_zero _)
  cases outcome with
  | success => exact ⟨.inl rfl, .success, hs, rfl⟩
  | fail => exact ⟨.inr rfl, .fail, hs, rfl⟩
  | provisional | cycle | failing => exact absurd hs.1 hno

def AllEnded (w : World Attribute.schema) (cells : List CellKey) : Prop :=
  ∀ d ∈ cells, ∃ status, w.stage d = some status ∧ status.isTerminal = true

theorem AllEnded.ahead {cells : List CellKey} (h : AllEnded w cells) (ha : w.Ahead w') :
    AllEnded w' cells := by
  intro d hd
  obtain ⟨status, hs, ht⟩ := h d hd
  exact ⟨status, ha.settled d status hs ht, ht⟩

theorem Wired.length_ended (h : g.Wired w) {cells : List CellKey} (hnodup : cells.Nodup)
    (hended : AllEnded w cells) : cells.length ≤ 8 * g.outline.size := by
  apply h.length_le hnodup
  intro d hd
  obtain ⟨status, hs, -⟩ := hended d hd
  obtain ⟨u, hu, -⟩ := World.exists_of_stage hs
  exact ⟨u, hu⟩

/-- Past a barrier. The induction is on the number of cells whose resolvers have
not been seen to end: each unit that is helped ends, and is one of them. -/
theorem answers_barrier (hs : g.outline.Shaped) (henter : ∀ k, n = k + 1 → g.Enters k)
    (hlower : ∀ (w : World Attribute.schema) (frames : List (Frame Attribute.schema)) (d : CellKey)
      (v : WorkUnit CellKey), g.Inv clean w frames → w.resolver? d = some v → g.Asks frames d →
      8 * g.outline.size ≤ frames.length + n → d.family.attr.phase < c.family.attr.phase →
      Answers g.model g.watch Analysis.home w frames (.unit v)
        (g.Entered clean d (g.Books w frames none) w frames))
    (hphase : u.phase = some c.family.attr.phase) (k : Nat) {cells : List CellKey}
    (h : g.Inv clean w frames) (hu : w.resolver? c = some u) (hasks : g.Asks frames c)
    (hn : 8 * g.outline.size ≤ frames.length + n) (hnodup : cells.Nodup)
    (hended : AllEnded w cells) (hk : 8 * g.outline.size ≤ cells.length + k) :
    Answers g.model g.watch Analysis.home w frames (.past u c.family.attr.phase)
      (g.Entered clean c (g.Books w frames none) w frames) := by
  induction k using Nat.strongRecOn generalizing w frames cells with
  | _ k ih =>
    by_cases hnone : w.ledger.earlierUnits c.family.attr.phase = []
    · apply answers_past hnone
      apply answers_of_new h hu hasks
      intro hnew hoff
      have hfirst : w.ledger.hasEarlier c.family.attr.phase = false :=
        w.ledger.hasEarlier_eq_false h.wired.tidy hnone
      apply answers_clear hs henter h hu hasks hn
      refine ⟨hoff, (World.stage_eq hu).symm.trans hnew, ?_⟩
      rw [hphase, Option.filter_some]
      exact if_neg (Bool.eq_false_iff.1 hfirst)
    · apply answers_help hnone
      · exact fun x hx => (h.stands hasks hx).off
      · intro x hx
        have hst := h.stands hasks hx
        exact (World.stage_eq hst.resolver).symm.trans hst.new
      intro x hx origin event
      have hst := h.stands hasks hx
      have hnote := World.same_note w origin event
      have ho : Onward w frames (w.note origin event) frames := ⟨hnote.ahead, rfl⟩
      apply (hlower _ frames x.2.rule x.2 (h.same hnote) hst.resolver hst.asks hn hst.lower).mono
      intro r w' frames' hr
      cases r with
      | error e => exact ⟨hr.1, hr.2.1, ho.trans hr.2.2⟩
      | ok outcome =>
        obtain ⟨hinv, ho', hsettles, hbooked⟩ := hr
        have hon := ho.trans ho'
        obtain ⟨hfinal, status, hstage, ht⟩ := hsettles.terminal (hon.asks hasks) hst.lower
        have hfresh : (x.2.rule :: cells).Nodup := by
          refine List.nodup_cons.2 ⟨fun hmem => ?_, hnodup⟩
          obtain ⟨status', hs', ht'⟩ := hended _ hmem
          rw [hst.new] at hs'
          cases hs'
          cases ht'
        have hended' : AllEnded w' (x.2.rule :: cells) := by
          intro d hd
          rcases List.mem_cons.1 hd with rfl | hd
          · exact ⟨status, hstage, ht⟩
          · exact hended.ahead hon.ahead d hd
        have hle : cells.length + 1 ≤ 8 * g.outline.size :=
          hinv.wired.length_ended hfresh hended'
        have hbooks : clean.Whole → ∀ told, g.Books w frames none told →
            g.Books w' frames' none told := by
          intro hclean told hb
          have hb' := hbooked hclean told (hb.calm (World.calm_note w origin event))
          rcases hfinal with rfl | rfl
          · exact hb'
          · exact hb'
        have hrest : Answers g.model g.watch Analysis.home w' frames' (.past u c.family.attr.phase)
            (g.Entered clean c (g.Books w frames none) w frames) := by
          apply (ih (k - 1) (by omega) hinv (hon.ahead.resolver c u hu) (hon.asks hasks)
            (by rw [hon.length]; exact hn) hfresh hended'
            (show 8 * g.outline.size ≤ cells.length + 1 + (k - 1) by omega)).mono
          intro r w'' frames'' hr
          exact hr.onward hon hbooks
        rcases hfinal with rfl | rfl
        · exact hrest
        · exact hrest

/-- Units of phases below `p` may be asked for, given that there is room. -/
theorem answers_below (hs : g.outline.Shaped) (henter : ∀ k, n = k + 1 → g.Enters k) (p : Phase)
    (h : g.Inv clean w frames) (hu : w.resolver? c = some u) (hasks : g.Asks frames c)
    (hn : 8 * g.outline.size ≤ frames.length + n) (hp : c.family.attr.phase < p) :
    Answers g.model g.watch Analysis.home w frames (.unit u)
      (g.Entered clean c (g.Books w frames none) w frames) := by
  induction p generalizing w frames c u with
  | zero => exact absurd hp (Nat.not_lt_zero _)
  | succ p ih =>
    apply answers_of_new h hu hasks
    intro hnew hoff
    have hstatus : w.ledger.status? u.id = some .new := (World.stage_eq hu).symm.trans hnew
    cases hfilter : u.phase.filter w.ledger.hasEarlier with
    | none => exact answers_clear hs henter h hu hasks hn ⟨hoff, hstatus, hfilter⟩
    | some q =>
      apply answers_behind (h.enters hu hasks) hoff hstatus hfilter
      obtain ⟨hphase, -⟩ := Option.filter_eq_some_iff.1 hfilter
      obtain ⟨-, rfl⟩ := h.wired.phase_eq hu hphase
      refine answers_barrier hs henter ?_ hphase (8 * g.outline.size) h hu hasks hn List.nodup_nil
        (fun d hd => by cases hd) (by simp)
      intro w' frames' d v h' hv hasks' hn' hlt
      exact ih h' hv hasks' hn' (Nat.lt_of_lt_of_le hlt (Nat.le_of_lt_succ hp))

/-- **Every request for a resolver is answered.** -/
theorem enters (hs : g.outline.Shaped) (n : Nat) : g.Enters n := by
  induction n with
  | zero =>
    intro clean w frames c u h hu hasks hn
    exact answers_below hs (fun k hk => by cases hk) _ h hu hasks hn (Nat.lt_succ_self _)
  | succ n ih =>
    intro clean w frames c u h hu hasks hn
    refine answers_below hs (fun k hk => ?_) _ h hu hasks hn (Nat.lt_succ_self _)
    cases hk
    exact ih

end Scene

end Attribution
