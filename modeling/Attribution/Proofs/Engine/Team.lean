import Attribution.Analysis
import Attribution.Proofs.Engine.Sheet
import Attribution.Proofs.Engine.Stack
/-!
# Teams of evaluators

Any number of evaluators of one scheduler that take turns after every step.
Evaluators may join at any time, idle ones may be given more to do, and bodies
are arbitrary. The only promise is that code asks for units that were
registered before, which `issued` lists by their numbers.

* `Orderly` is the invariant that a turn preserves (`Orderly.turn`);
* `Consistent` is what it means for statuses, owners, stacks and pending units;
* `reach_consistent` says that it holds at every point of every run, and that
  statuses change only as `Status.canBecome` allows.
-/

namespace Attribution.Engine

variable {S : Schema} {α : Type}

structure Team (S : Schema) (α : Type) where
  world : World S
  members : List (Evaluator S α) := []

namespace Team

/-- The scheduler exists and has no units, and no cell has a resolver. -/
structure Fresh (home : SchedulerId) (w : World S) : Prop where
  exists_home : home < w.schedulers.size
  no_units : (w.scheduler home).entries.size = 0
  no_phases : (w.scheduler home).phases = {}
  no_resolver : ∀ c, (w.cell c).resolver = none

/-- What may happen next, with the units that are registered by it. Which cells
are held elsewhere is left open. -/
inductive Turn (m : Model S) (home : SchedulerId) (issued : List (WorkUnit S.Rule)) :
    Team S α → Team S α → List (WorkUnit S.Rule) → Prop where
  | hire (x : Team S α) (worker : Option Nat) (a : Action S α) :
    Turn m home issued x
      ⟨(x.world.evaluator home worker (.act (.top a))).1,
        x.members ++ [(x.world.evaluator home worker (.act (.top a))).2]⟩ []
  | resume (w : World S) (before after : List (Evaluator S α)) (e : Evaluator S α) (b : α)
    (a : Action S α) (hw : e.writes = []) (hf : e.focus = .done b) :
    Turn m home issued ⟨w, before ++ e :: after⟩ ⟨w, before ++ e.resume (.top a) :: after⟩ []
  | step (w w' : World S) (before after : List (Evaluator S α)) (e e' : Evaluator S α)
    (pick : Nat) (elsewhere : S.Key → Bool) (hasks : ∀ u, e.Asks u → u ∈ issued)
    (h : e.step m pick { w with elsewhere } = some (w', e')) :
    Turn m home issued ⟨w, before ++ e :: after⟩ ⟨w', before ++ e' :: after⟩ (e.registers w)

/-- The teams that come about, with the units registered on the way. -/
inductive Reach (m : Model S) (home : SchedulerId) :
    Team S α → List (WorkUnit S.Rule) → Prop where
  | start (w : World S) (h : Fresh home w) : Reach m home ⟨w, []⟩ []
  | turn {x y : Team S α} {issued new : List (WorkUnit S.Rule)} (hx : Reach m home x issued)
    (h : Turn m home issued x y new) : Reach m home y (issued ++ new)

theorem Turn.quiet {m : Model S} {home : SchedulerId} {issued : List (WorkUnit S.Rule)}
    {w w' : World S} (before after : List (Evaluator S α)) {e e' : Evaluator S α} (pick : Nat)
    (hr : e.request? = none) (h : e.step m pick w = some (w', e')) :
    Turn m home issued ⟨w, before ++ e :: after⟩ ⟨w', before ++ e' :: after⟩ [] := by
  have hregisters : e.registers w = [] := by simp [Evaluator.registers, hr]
  rw [← hregisters]
  refine .step w w' before after e e' pick w.elsewhere (fun u hu => ?_) h
  rcases hu with hu | ⟨c, hu⟩
  · cases hr.symm.trans hu
  · cases hr.symm.trans hu

theorem Turn.asking {m : Model S} {home : SchedulerId} {issued : List (WorkUnit S.Rule)}
    {w w' : World S} (before after : List (Evaluator S α)) {e e' : Evaluator S α}
    {v : WorkUnit S.Rule} (hr : e.request? = some (.attempt v)) (hv : v ∈ issued)
    (h : e.step m 0 w = some (w', e')) :
    Turn m home issued ⟨w, before ++ e :: after⟩ ⟨w', before ++ e' :: after⟩ [] := by
  have hregisters : e.registers w = [] := by simp [Evaluator.registers, hr]
  rw [← hregisters]
  refine .step w w' before after e e' 0 w.elsewhere (fun u hu => ?_) h
  rcases hu with hu | ⟨c, hu⟩
  · obtain rfl := Request.attempt.inj (Option.some.inj (hr.symm.trans hu))
    exact hv
  · cases hr.symm.trans hu

theorem mem_splice {β : Type} {before after : List β} {e d : β} :
    d ∈ before ++ e :: after ↔ d = e ∨ d ∈ before ++ after := by
  simp only [List.mem_append, List.mem_cons]
  constructor
  · rintro (h | h | h)
    · exact .inr (.inl h)
    · exact .inl h
    · exact .inr (.inr h)
  · rintro (h | h | h)
    · exact .inr (.inl h)
    · exact .inl h
    · exact .inr (.inr h)

/-! ## The invariant of a turn -/

structure Orderly (home : SchedulerId) (x : Team S α) (issued : List (WorkUnit S.Rule)) :
    Prop where
  exists_home : home < x.world.schedulers.size
  ids : (x.members.map Evaluator.id).Nodup
  id_lt : ∀ e ∈ x.members, e.id < x.world.evaluators
  at_home : ∀ e ∈ x.members, e.home = home
  nodup : ∀ e ∈ x.members, (e.frames.map fun f => f.unit.id).Nodup
  held : ∀ e ∈ x.members, ∀ f ∈ e.frames, f.Held (x.world.scheduler home) e.id
  registered : ∀ e ∈ x.members, ∀ f ∈ e.frames, f.unit ∈ issued
  owned : ∀ id owner, (x.world.scheduler home).owner? id = some owner →
    ∃ e ∈ x.members, ∃ f ∈ e.frames, f.unit.id = id
  running : ∀ id status, (x.world.scheduler home).status? id = some status →
    status.isRunning = true → ∃ e ∈ x.members, ∃ f ∈ e.frames, f.unit.id = id
  heads : ∀ e ∈ x.members, Frame.HeadsBelow e.frames
  lists : (x.world.scheduler home).Lists home issued
  resolver : ∀ c u, (x.world.cell c).resolver = some u → u ∈ issued
  mentions : ∀ e ∈ x.members, ∀ u, e.Mentions u → u ∈ issued

namespace Orderly

variable {home : SchedulerId} {issued : List (WorkUnit S.Rule)}

theorem start {w : World S} (h : Fresh home w) : Orderly home (⟨w, []⟩ : Team S α) [] := by
  have hstatus : ∀ id, (w.scheduler home).status? id = none := fun id =>
    ((w.scheduler home).status?_eq_none_iff id).2 (by rw [h.no_units]; exact Nat.zero_le id)
  have howner : ∀ id, (w.scheduler home).owner? id = none := fun id =>
    (w.scheduler home).owner?_eq_none_of_size_le (by rw [h.no_units]; exact Nat.zero_le id)
  refine ⟨h.exists_home, List.nodup_nil, ?_, ?_, ?_, ?_, ?_, fun id owner hid => ?_,
    fun id status hid => ?_, ?_, Scheduler.lists_nil h.no_units h.no_phases,
    fun c u hu => ?_, ?_⟩
  case refine_6 =>
    rw [howner] at hid
    cases hid
  case refine_7 =>
    rw [hstatus] at hid
    cases hid
  case refine_9 =>
    rw [h.no_resolver] at hu
    cases hu
  all_goals simp

theorem hire {x : Team S α} (h : Orderly home x issued) (worker : Option Nat)
    (a : Action S α) :
    Orderly home ⟨(x.world.evaluator home worker (.act (.top a))).1,
      x.members ++ [(x.world.evaluator home worker (.act (.top a))).2]⟩ issued := by
  have hmem : ∀ P : Evaluator S α → Prop, (∀ e ∈ x.members, P e) →
      P (x.world.evaluator home worker (.act (.top a))).2 →
      ∀ e ∈ x.members ++ [(x.world.evaluator home worker (.act (.top a))).2], P e := by
    intro P hold hnew e he
    rcases List.mem_append.1 he with he | he
    · exact hold e he
    · rw [List.mem_singleton.1 he]
      exact hnew
  refine ⟨h.exists_home, ?_, hmem _ (fun e he => Nat.lt_succ_of_lt (h.id_lt e he))
    (Nat.lt_succ_self _), hmem _ h.at_home rfl, hmem _ h.nodup List.nodup_nil,
    hmem _ h.held (by simp [World.evaluator]), hmem _ h.registered (by simp [World.evaluator]),
    fun id owner ho => ?_, fun id status hs hr => ?_, hmem _ h.heads trivial, h.lists, h.resolver,
    hmem _ h.mentions fun u hu => ?_⟩
  · rw [List.map_append, List.nodup_append]
    refine ⟨h.ids, by simp, fun i hi j hj heq => ?_⟩
    obtain ⟨e, he, rfl⟩ := List.mem_map.1 hi
    have hj' : j = x.world.evaluators := List.mem_singleton.1 hj
    exact Nat.lt_irrefl _ (hj' ▸ heq ▸ h.id_lt e he)
  · obtain ⟨e, he, hf⟩ := h.owned id owner ho
    exact ⟨e, List.mem_append_left _ he, hf⟩
  · obtain ⟨e, he, hf⟩ := h.running id status hs hr
    exact ⟨e, List.mem_append_left _ he, hf⟩
  · rcases hu with hu | ⟨l, hl, -⟩
    · exact hu.elim
    · cases hl

theorem resume {w : World S} {before after : List (Evaluator S α)} {e : Evaluator S α}
    (h : Orderly home ⟨w, before ++ e :: after⟩ issued) (code : Code S α) :
    Orderly home ⟨w, before ++ e.resume code :: after⟩ issued := by
  have hmem : ∀ P : Evaluator S α → Prop, (∀ d ∈ before ++ e :: after, P d) →
      (P e → P (e.resume code)) → ∀ d ∈ before ++ e.resume code :: after, P d := by
    intro P hold hnew d hd
    rcases mem_splice.1 hd with rfl | hd
    · exact hnew (hold e (mem_splice.2 (.inl rfl)))
    · exact hold d (mem_splice.2 (.inr hd))
  have hex : ∀ id, (∃ d ∈ before ++ e :: after, ∃ f ∈ d.frames, f.unit.id = id) →
      ∃ d ∈ before ++ e.resume code :: after, ∃ f ∈ d.frames, f.unit.id = id := by
    rintro id ⟨d, hd, hf⟩
    rcases mem_splice.1 hd with rfl | hd
    · exact ⟨d.resume code, mem_splice.2 (.inl rfl), hf⟩
    · exact ⟨d, mem_splice.2 (.inr hd), hf⟩
  refine ⟨h.exists_home, ?_, hmem _ h.id_lt fun h => h, hmem _ h.at_home fun h => h,
    hmem _ h.nodup fun h => h, hmem _ h.held fun h => h, hmem _ h.registered fun h => h,
    fun id owner ho => hex id (h.owned id owner ho),
    fun id status hs hr => hex id (h.running id status hs hr), hmem _ h.heads fun h => h, h.lists,
    h.resolver, hmem _ h.mentions fun he u hu => he u ?_⟩
  · have hids := h.ids
    rw [List.map_append, List.map_cons] at hids ⊢
    exact hids
  · exact .inr (hu.resolve_left fun h => h)

theorem apart {w : World S} {before after : List (Evaluator S α)} {e d : Evaluator S α}
    (h : Orderly home ⟨w, before ++ e :: after⟩ issued) (hd : d ∈ before ++ after) {f g : Frame S}
    (hf : f ∈ d.frames) (hg : g ∈ e.frames) : g.unit.id ≠ f.unit.id := by
  intro heq
  have hids : (e.id :: (before ++ after).map Evaluator.id).Nodup :=
    (List.perm_middle.map Evaluator.id).nodup_iff.1 h.ids
  have howner := (h.held e (mem_splice.2 (.inl rfl)) g hg).owner
  rw [heq, (h.held d (mem_splice.2 (.inr hd)) f hf).owner] at howner
  exact (List.nodup_cons.1 hids).1 (List.mem_map.2 ⟨d, hd, Option.some.inj howner⟩)

theorem apart_of_move {w : World S} {before after : List (Evaluator S α)} {e d : Evaluator S α}
    (h : Orderly home ⟨w, before ++ e :: after⟩ issued) {s' : Scheduler S.Rule}
    {frames : List (Frame S)} {units : List (WorkUnit S.Rule)}
    (hmove : Move (w.scheduler home) e s' frames units) (hd : d ∈ before ++ after)
    {f g : Frame S} (hf : f ∈ d.frames) (hg : g ∈ frames) : g.unit.id ≠ f.unit.id := by
  intro heq
  rcases hmove.origin hg with ⟨g', hg', hu⟩ | ⟨hnew, -⟩
  · exact h.apart hd hf hg' (by rw [hu, heq])
  · obtain ⟨status, hs, hrun, -⟩ := (h.held d (mem_splice.2 (.inr hd)) f hf).status
    rw [heq, hs] at hnew
    rw [Option.some.inj hnew] at hrun
    cases hrun

theorem step {m : Model S} {w w' : World S} {before after : List (Evaluator S α)}
    {e e' : Evaluator S α} {pick : Nat} {elsewhere : S.Key → Bool}
    (h : Orderly home ⟨w, before ++ e :: after⟩ issued) (hasks : ∀ u, e.Asks u → u ∈ issued)
    (hstep : e.step m pick { w with elsewhere } = some (w', e')) :
    Orderly home ⟨w', before ++ e' :: after⟩ (issued ++ e.registers w) ∧
      ∀ id, Status.Change ((w.scheduler home).status? id) ((w'.scheduler home).status? id) := by
  have he : e ∈ before ++ e :: after := mem_splice.2 (.inl rfl)
  have hhome : e.home = home := h.at_home e he
  have st : Stepped { w with elsewhere } e w' e' := by
    refine Evaluator.stepped_of_step ?_ (fun c u hu => ?_) hstep
    · rw [hhome]
      exact h.exists_home
    · rw [hhome]
      exact h.lists.home u (h.resolver c u hu)
  obtain ⟨s', hmove, htable⟩ := st.move
  rw [hhome] at hmove htable
  change Move (w.scheduler home) e s' e'.frames (e.registers w) at hmove
  have hstatus := Scheduler.status?_eq_of_table htable
  have howner := Scheduler.owner?_eq_of_table htable
  have hheld := hmove.held (h.held e he) (h.nodup e he)
  have hmem : ∀ P Q : Evaluator S α → Prop, (∀ d ∈ before ++ e :: after, P d) →
      (∀ d ∈ before ++ after, P d → Q d) → Q e' → ∀ d ∈ before ++ e' :: after, Q d := by
    intro P Q hold hothers hnew d hd
    rcases mem_splice.1 hd with rfl | hd
    · exact hnew
    · exact hothers d hd (hold d (mem_splice.2 (.inr hd)))
  -- A unit that is on no stack of `e` is on the same stack as before.
  have hstill : ∀ id, (∀ f ∈ e.frames, f.unit.id ≠ id) →
      (∃ d ∈ before ++ e :: after, ∃ f ∈ d.frames, f.unit.id = id) →
      ∃ d ∈ before ++ e' :: after, ∃ f ∈ d.frames, f.unit.id = id := by
    rintro id hnot ⟨d, hd, f, hf, hid⟩
    rcases mem_splice.1 hd with rfl | hd
    · exact absurd hid (hnot f hf)
    · exact ⟨d, mem_splice.2 (.inr hd), f, hf, hid⟩
  have hpresent : ∀ id, (∃ f ∈ e'.frames, f.unit.id = id) →
      ∃ d ∈ before ++ e' :: after, ∃ f ∈ d.frames, f.unit.id = id :=
    fun id hf => ⟨e', mem_splice.2 (.inl rfl), hf⟩
  have hchange : ∀ id, Status.Change ((w.scheduler home).status? id)
      ((w'.scheduler home).status? id) := fun id => by
    rw [hstatus]
    exact hmove.status_change (h.held e he) id
  refine ⟨⟨?_, ?_, ?_, ?_, ?_, ?_, ?_, fun id owner ho => ?_, fun id status hs hr => ?_, ?_, ?_,
    fun c u hu => ?_, ?_⟩, hchange⟩
  · rw [st.size]
    exact h.exists_home
  · have hids := h.ids
    rw [List.map_append, List.map_cons] at hids ⊢
    rw [st.id]
    exact hids
  · rw [st.evaluators]
    exact hmem _ _ h.id_lt (fun _ _ hd => hd) (st.id ▸ h.id_lt e he)
  · exact hmem _ _ h.at_home (fun _ _ hd => hd) (st.home.trans hhome)
  · exact hmem _ _ h.nodup (fun _ _ hd => hd) (hmove.nodup (h.nodup e he))
  · refine hmem _ _ h.held (fun d hd hold f hf => ?_) fun f hf => ?_
    · obtain ⟨hs, ho⟩ := hmove.untouched (h.held e he) (fun _ hg => h.apart hd hf hg)
        fun _ hg => h.apart_of_move hmove hd hf hg
      refine (hold f hf).congr rfl rfl ?_ ?_
      · exact (howner _).trans ho
      · exact (hstatus _).trans (hs (hold f hf).lt_size)
    · rw [st.id]
      exact (hheld f hf).congr rfl rfl (howner _) (hstatus _)
  · refine hmem _ _ h.registered (fun d _ hold f hf => List.mem_append_left _ (hold f hf))
      fun f hf => List.mem_append_left _ ?_
    rcases hmove.origin hf with ⟨g, hg, hu⟩ | ⟨-, hu⟩
    · rw [← hu]
      exact h.registered e he g hg
    · exact h.mentions e he _ hu
  · rw [howner] at ho
    rcases hmove.fate (h.held e he) id with hon | ⟨hfree, -⟩ | ⟨hnot, hsame, -⟩
    · exact hpresent id hon
    · rw [hfree] at ho
      cases ho
    · rw [hsame] at ho
      exact hstill id hnot (h.owned id owner ho)
  · rcases hmove.fate (h.held e he) id with hon | ⟨-, status', hs', hr'⟩ | ⟨hnot, -, hsame⟩
    · exact hpresent id hon
    · rw [hstatus, hs'] at hs
      rw [Option.some.inj hs, hr] at hr'
      cases hr'
    · rcases Nat.lt_or_ge id (w.scheduler home).entries.size with hlt | hge
      · rw [hstatus, hsame hlt] at hs
        exact hstill id hnot (h.running id status hs hr)
      · have hc := hchange id
        rw [((w.scheduler home).status?_eq_none_iff id).2 hge, hs] at hc
        rw [hc.eq_new] at hr
        cases hr
  · exact hmem _ _ h.heads (fun _ _ hd => hd) (hmove.headsBelow (h.heads e he))
  · have hl := hmove.lists (h.held e he) (h.registered e he) (hhome.symm ▸ h.lists)
    rw [hhome] at hl
    exact hl.congr htable
  · rcases st.resolver c u hu with hu | hu | hu
    · exact List.mem_append_left _ (h.resolver c u hu)
    · exact List.mem_append_right _ hu
    · exact List.mem_append_left _ (hasks u hu)
  · refine hmem _ _ h.mentions (fun d _ hold u hu => List.mem_append_left _ (hold u hu))
      fun u hu => List.mem_append_left _ ?_
    rcases st.mentions u hu with hu | hu | ⟨c, hu⟩ | ⟨p, hu⟩
    · exact h.mentions e he u hu
    · exact hasks u hu
    · exact h.resolver c u hu
    · rw [hhome] at hu
      exact ((h.lists.pending p u).1 hu).1

theorem turn {m : Model S} {x y : Team S α} {new : List (WorkUnit S.Rule)}
    (h : Orderly home x issued) (hturn : Turn m home issued x y new) :
    Orderly home y (issued ++ new) ∧ ∀ id,
      Status.Change ((x.world.scheduler home).status? id) ((y.world.scheduler home).status? id) := by
  cases hturn with
  | hire _ worker a =>
    rw [List.append_nil]
    exact ⟨h.hire worker a, fun _ => .inl rfl⟩
  | resume w before after e b a hw hf =>
    rw [List.append_nil]
    exact ⟨h.resume (.top a), fun _ => .inl rfl⟩
  | step w w' before after e e' pick elsewhere hasks hstep => exact h.step hasks hstep

end Orderly

theorem Reach.orderly {m : Model S} {home : SchedulerId} {x : Team S α}
    {issued : List (WorkUnit S.Rule)} (h : Reach m home x issued) : Orderly home x issued := by
  induction h with
  | start w h => exact .start h
  | turn _ hturn ih => exact (ih.turn hturn).1

/-! ## Statuses and stacks -/

/-- Where a unit is on a stack: by evaluator and frame. -/
def sightings (x : Team S α) (id : UnitId) : List (EvaluatorId × Frame S) :=
  x.members.flatMap fun e => (e.frames.filter fun f => f.unit.id == id).map fun f => (e.id, f)

/-- What the table says is what the stacks show. -/
structure Consistent (home : SchedulerId) (x : Team S α) (issued : List (WorkUnit S.Rule)) :
    Prop where
  /-- The units with a status are those that were registered. -/
  known : ∀ id, (∃ status, (x.world.scheduler home).status? id = some status) ↔
    ∃ u ∈ issued, u.id = id
  /-- A unit is running iff it is in one frame of one stack, that of its owner. -/
  running : ∀ id status, (x.world.scheduler home).status? id = some status →
    (status.isRunning = true ↔ ∃ owner f, x.sightings id = [(owner, f)] ∧
      (x.world.scheduler home).owner? id = some owner)
  /-- Otherwise it is in no frame, and nobody owns it. -/
  idle : ∀ id status, (x.world.scheduler home).status? id = some status →
    status.isRunning = false → x.sightings id = [] ∧ (x.world.scheduler home).owner? id = none
  willFail : ∀ id owner f, (owner, f) ∈ x.sightings id →
    ((x.world.scheduler home).status? id = some .runningWillFail ↔ f.doomed = true)
  head_lt : ∀ e ∈ x.members, ∀ above f below, e.frames = above ++ f :: below →
    ∀ head, f.head = some head → head < below.length
  pending : ∀ p u, (p, u) ∈ (x.world.scheduler home).pending ↔
    u ∈ issued ∧ u.phase = some p ∧ (x.world.scheduler home).Unfinished u
  pending_nodup : ((x.world.scheduler home).pending.map fun x => x.2.id).Nodup
  /-- There is one bucket for each phase at most, and none is empty. -/
  buckets : (x.world.scheduler home).phases.Tidy
  /-- A lower phase counts as pending iff one of its units has not ended. -/
  earlier : ∀ p, (x.world.scheduler home).hasEarlier p = true ↔
    ∃ u ∈ issued, ∃ q, u.phase = some q ∧ q < p ∧ (x.world.scheduler home).Unfinished u

namespace Orderly

variable {home : SchedulerId} {issued : List (WorkUnit S.Rule)} {x : Team S α}

theorem mem_sightings {id : UnitId} {owner : EvaluatorId} {f : Frame S} :
    (owner, f) ∈ x.sightings id ↔
      ∃ e ∈ x.members, e.id = owner ∧ f ∈ e.frames ∧ f.unit.id = id := by
  simp only [sightings, List.mem_flatMap, List.mem_map, List.mem_filter, beq_iff_eq, Prod.mk.injEq]
  constructor
  · rintro ⟨e, he, g, ⟨hg, hid⟩, rfl, rfl⟩
    exact ⟨e, he, rfl, hg, hid⟩
  · rintro ⟨e, he, rfl, hf, hid⟩
    exact ⟨e, he, f, ⟨hf, hid⟩, rfl, rfl⟩

theorem sightings_eq (h : Orderly home x issued) {e : Evaluator S α} (he : e ∈ x.members)
    {f : Frame S} (hf : f ∈ e.frames) : x.sightings f.unit.id = [(e.id, f)] := by
  obtain ⟨w, members⟩ := x
  obtain ⟨before, after, rfl⟩ := List.append_of_mem he
  have hnodup := h.nodup e he
  have hothers : ∀ d ∈ before ++ after,
      ((d.frames.filter fun g => g.unit.id == f.unit.id).map fun g => (d.id, g)) = [] := by
    intro d hd
    rw [List.map_eq_nil_iff, List.filter_eq_nil_iff]
    intro g hg heq
    exact h.apart hd hg hf (beq_iff_eq.1 heq).symm
  have hown : (e.frames.filter fun g => g.unit.id == f.unit.id) = [f] := by
    obtain ⟨above, below, hframes⟩ := List.append_of_mem hf
    rw [hframes, List.map_append, List.map_cons] at hnodup
    have hne := (List.nodup_cons.1 (List.perm_middle.nodup_iff.1 hnodup)).1
    rw [← List.map_append] at hne
    have hout : ∀ g ∈ above ++ below, ¬(g.unit.id == f.unit.id) = true := fun g hg heq =>
      hne (List.mem_map.2 ⟨g, hg, beq_iff_eq.1 heq⟩)
    rw [hframes, List.filter_append, List.filter_cons_of_pos (by simp),
      List.filter_eq_nil_iff.2 fun g hg => hout g (List.mem_append_left _ hg),
      List.filter_eq_nil_iff.2 fun g hg => hout g (List.mem_append_right _ hg)]
    rfl
  rw [sightings, List.flatMap_append, List.flatMap_cons, hown,
    List.flatMap_eq_nil_iff.2 fun d hd => hothers d (List.mem_append_left _ hd),
    List.flatMap_eq_nil_iff.2 fun d hd => hothers d (List.mem_append_right _ hd)]
  rfl

theorem consistent (h : Orderly home x issued) : Consistent home x issued := by
  refine ⟨fun id => ⟨?_, ?_⟩, fun id status hs => ⟨fun hr => ?_, ?_⟩, fun id status hs hr => ?_,
    fun id owner f hsight => ?_, fun e he above f below hframes head hhead => ?_, h.lists.pending,
    h.lists.nodup, h.lists.tidy, fun p => ⟨fun hearlier => ?_, ?_⟩⟩
  · rintro ⟨status, hs⟩
    exact h.lists.exists_of_lt ((x.world.scheduler home).lt_size_of_status? hs)
  · rintro ⟨u, hu, rfl⟩
    exact (x.world.scheduler home).exists_status?_of_lt (h.lists.lt_size hu)
  · obtain ⟨e, he, f, hf, rfl⟩ := h.running id status hs hr
    exact ⟨e.id, f, h.sightings_eq he hf, (h.held e he f hf).owner⟩
  · rintro ⟨owner, f, hsight, -⟩
    have hmem : (owner, f) ∈ x.sightings id := by
      rw [hsight]
      exact List.mem_singleton.2 rfl
    obtain ⟨e, he, -, hf, rfl⟩ := mem_sightings.1 hmem
    obtain ⟨status', hs', hr', -⟩ := (h.held e he f hf).status
    rw [hs] at hs'
    rw [Option.some.inj hs']
    exact hr'
  · -- A frame of the unit would make it running.
    have hnone : ∀ e ∈ x.members, ∀ f ∈ e.frames, f.unit.id ≠ id := by
      rintro e he f hf rfl
      obtain ⟨status', hs', hr', -⟩ := (h.held e he f hf).status
      rw [hs] at hs'
      rw [← Option.some.inj hs', hr] at hr'
      cases hr'
    refine ⟨List.eq_nil_iff_forall_not_mem.2 fun y hy => ?_, Option.eq_none_iff_forall_ne_some.2 ?_⟩
    · obtain ⟨e, he, -, hf, hid⟩ := mem_sightings.1 hy
      exact hnone e he y.2 hf hid
    · intro owner ho
      obtain ⟨e, he, f, hf, hid⟩ := h.owned id owner ho
      exact hnone e he f hf hid
  · obtain ⟨e, he, -, hf, rfl⟩ := mem_sightings.1 hsight
    obtain ⟨status, hs, -, hd⟩ := (h.held e he f hf).status
    rw [hs, Option.some.injEq]
    exact hd
  · have hbelow := h.heads e he
    rw [hframes] at hbelow
    exact Frame.headsBelow_append hbelow hhead
  · -- The bucket that holds the phase back is not empty.
    obtain ⟨⟨q, u⟩, hmem, hlt⟩ := Scheduler.exists_of_hasEarlier _ h.lists.tidy hearlier
    obtain ⟨hu, hq, hun⟩ := (h.lists.pending q u).1 hmem
    exact ⟨u, hu, q, hq, hlt, hun⟩
  · rintro ⟨u, hu, q, hq, hlt, hun⟩
    exact Scheduler.hasEarlier_of_mem _ ((h.lists.pending q u).2 ⟨hu, hq, hun⟩) hlt

end Orderly

/-- At every point of every run the table says what the stacks show, and
whatever happens next changes statuses only in the ways listed. -/
theorem reach_consistent {m : Model S} {home : SchedulerId} {x : Team S α}
    {issued : List (WorkUnit S.Rule)} (h : Reach m home x issued) :
    Consistent home x issued ∧ ∀ y new, Turn m home issued x y new → ∀ id,
      Status.Change ((x.world.scheduler home).status? id)
        ((y.world.scheduler home).status? id) :=
  ⟨h.orderly.consistent, fun _ _ hturn => (h.orderly.turn hturn).2⟩

theorem fresh_start (s : Subject) (config : Config) :
    Fresh Analysis.home (Analysis.start s config).world where
  exists_home := Nat.zero_lt_one
  no_units := rfl
  no_phases := rfl
  no_resolver c := by simp [World.cell, Store.get, Analysis.start]

theorem fresh_sheet : Fresh (S := sheet) 0 { env := (), schedulers := #[{}] } :=
  ⟨by decide, rfl, rfl, fun _ => rfl⟩

private def overture : WorkUnit Nat := ⟨0, "overture", some 0, 0, 0⟩

private def rondo : WorkUnit Nat := ⟨1, "rondo", some 1, 1, 0⟩

private def discord : WorkUnit Nat := ⟨2, "discord", some 1, 2, 0⟩

/-- The overture just ends, the rondo asks for itself, and the discord fails. -/
private def score : Model sheet :=
  .ofBodies fun
    | (0 : Nat) => .pure (.ok ())
    | 1 => .ask (.attempt rondo) fun _ => .pure (.ok ())
    | _ => .ask (.fail ⟨.ruleViolation, "no", ⟨1, 1⟩⟩) fun _ => .pure (.ok ())

private theorem reach_finale : ∃ x : Team sheet Unit, Reach score 0 x [overture, rondo, discord] ∧
    (x.world.scheduler 0).status? 0 = some .success ∧
    (x.world.scheduler 0).status? 1 = some .runningRecursive ∧
    (x.world.scheduler 0).status? 2 = some .runningWillFail ∧
    (x.world.scheduler 0).phases.buckets = [(1, [rondo, discord])] ∧
    (x.sightings 1).length = 1 ∧ (x.sightings 2).length = 1 ∧
    ∃ y, Turn score 0 [overture, rondo, discord] x y [] ∧
      (y.world.scheduler 0).status? 2 = some .fail ∧
      (y.world.scheduler 0).phases.buckets = [(1, [rondo])] := by
  have start := Reach.start (α := Unit) (m := score) _ fresh_sheet
  have hired := start.turn (.hire _ none
    (.ask (.register overture.label overture.phase overture.rule) fun _ =>
      .ask (.register rondo.label rondo.phase rondo.rule) fun _ =>
        .ask (.register discord.label discord.phase discord.rule) fun _ =>
          .ask (.attempt overture) fun _ => .ask (.attempt rondo) fun _ => .pure ()))
  have first := hired.turn (.step _ _ [] [] _ _ 0 (fun _ => false) nofun rfl)
  have second := first.turn (.step _ _ [] [] _ _ 0 (fun _ => false) nofun rfl)
  have third : Reach score 0 _ [overture, rondo, discord] :=
    second.turn (.step _ _ [] [] _ _ 0 (fun _ => false) nofun rfl)
  -- The unit of phase 0 is run to its end, and its bucket goes.
  have opened : Reach score 0 _ [overture, rondo, discord] :=
    third.turn (.asking [] [] (v := overture) rfl List.mem_cons_self rfl)
  have claimed : Reach score 0 _ [overture, rondo, discord] := opened.turn (.quiet [] [] 0 rfl rfl)
  have played : Reach score 0 _ [overture, rondo, discord] := claimed.turn (.quiet [] [] 0 rfl rfl)
  have settled : Reach score 0 _ [overture, rondo, discord] := played.turn (.quiet [] [] 0 rfl rfl)
  have applauded : Reach score 0 _ [overture, rondo, discord] :=
    settled.turn (.quiet [] [] 0 rfl rfl)
  -- A unit of phase 1 starts and is entered again.
  have asked : Reach score 0 _ [overture, rondo, discord] :=
    applauded.turn (.asking [] [] (v := rondo) rfl (.tail _ (.head _)) rfl)
  have started : Reach score 0 _ [overture, rondo, discord] := asked.turn (.quiet [] [] 0 rfl rfl)
  have again : Reach score 0 _ [overture, rondo, discord] :=
    started.turn (.asking [] [] (v := rondo) rfl (.tail _ (.head _)) rfl)
  have reentered : Reach score 0 _ [overture, rondo, discord] := again.turn (.quiet [] [] 0 rfl rfl)
  -- Another evaluator runs the other one, which fails.
  have joined : Reach score 0 _ [overture, rondo, discord] :=
    reentered.turn (.hire _ none (.ask (.attempt discord) fun _ => .pure ()))
  have called : Reach score 0 _ [overture, rondo, discord] :=
    joined.turn (.asking [_] [] (v := discord) rfl (.tail _ (.tail _ (.head _))) rfl)
  have running : Reach score 0 _ [overture, rondo, discord] := called.turn (.quiet [_] [] 0 rfl rfl)
  have failed : Reach score 0 _ [overture, rondo, discord] :=
    running.turn (.step _ _ [_] [] _ _ 0 (fun _ => false) nofun rfl)
  have closed : Reach score 0 _ [overture, rondo, discord] := failed.turn (.quiet [_] [] 0 rfl rfl)
  exact ⟨_, closed, rfl, rfl, rfl, rfl, rfl, rfl, _, .quiet [_] [] 0 rfl rfl, rfl, rfl⟩

/-- One evaluator runs a unit that was entered again, another one a unit that has failed. Both
are of phase 1, and the unit of phase 0 has ended. The next turn may settle the failed one. -/
theorem reach_consistent_finale : ∃ x : Team sheet Unit,
    Reach score 0 x [overture, rondo, discord] ∧
    (x.world.scheduler 0).status? 0 = some .success ∧
    (x.world.scheduler 0).status? 1 = some .runningRecursive ∧
    (x.world.scheduler 0).status? 2 = some .runningWillFail ∧
    (x.world.scheduler 0).phases.buckets = [(1, [rondo, discord])] ∧
    (x.sightings 1).length = 1 ∧ (x.sightings 2).length = 1 ∧
    Consistent 0 x [overture, rondo, discord] ∧
    ∃ y, Turn score 0 [overture, rondo, discord] x y [] ∧
      (y.world.scheduler 0).phases.buckets = [(1, [rondo])] ∧
      Status.Change (some .runningWillFail) ((y.world.scheduler 0).status? 2) ∧
      (y.world.scheduler 0).status? 2 = some .fail := by
  obtain ⟨x, hreach, h0, h1, h2, hbuckets, hrondo, hdiscord, y, hturn, hfail, hleft⟩ := reach_finale
  obtain ⟨hconsistent, hchange⟩ := reach_consistent hreach
  exact ⟨x, hreach, h0, h1, h2, hbuckets, hrondo, hdiscord, hconsistent, y, hturn, hleft,
    h2 ▸ hchange y [] hturn 2, hfail⟩

end Team

end Attribution.Engine
