import Attribution.Proofs.Recipe.Advance
/-!
# Sound moments

What holds of cells and stacks at every moment of an evaluation.

* `Fares` lists what an advance may do to a unit and to its cell together
  (`Advance.fares`), and `Stored` is what it comes to: a final value belongs to
  a unit that has ended, and only a failure leaves the sentinel;
* `Frame.Joined` says that a cycle leaves no gap on the stack: below a unit that
  is part of a cycle stands another one, or the unit that was entered again.
-/

namespace Attribution.Engine

variable {S : Schema} {m : Model S} {k : Rulebook m} {home : SchedulerId} {owner : EvaluatorId}
  {issued : List (WorkUnit S.Rule)} {x y : Moment S}

/-! ## Units and their cells -/

/-- The status of a unit and the value of its cell, before and after. -/
inductive Fares (S : Schema) (c : S.Key) : Option Status → CellValue (S.Val c) →
    Option Status → CellValue (S.Val c) → Prop where
  | keep (s : Option Status) (v : CellValue (S.Val c)) : Fares S c s v s v
  | run {s s' : Status} (v : CellValue (S.Val c)) (hs : s.isTerminal = false)
    (hs' : s'.isTerminal = false) : Fares S c (some s) v (some s') v
  | fallBack (s : Option Status) : Fares S c s .unset s (.soft (S.fallback c))
  | giveUp {v : CellValue (S.Val c)} (hv : v.isForced = false) :
    Fares S c (some .fail) v (some .fail) (.forced (S.sentinel c))
  | stop {s : Status} (v : CellValue (S.Val c)) (hs : s.isTerminal = false) :
    Fares S c (some s) v (some .fail) v
  | succeed {s : Status} (v : CellValue (S.Val c)) (a : S.Val c) (hs : s.isTerminal = false) :
    Fares S c (some s) v (some .success) (.forced a)
  | defer {s : Status} (v : CellValue (S.Val c)) (a : S.Val c) (hs : s.isTerminal = false) :
    Fares S c (some s) v (some .new) (.soft a)
  | lose {s : Status} (v : CellValue (S.Val c)) (hs : s.isTerminal = false) :
    Fares S c (some s) v (some .fail) (.forced (S.sentinel c))

theorem Manned.top_status (h : Manned home owner issued x) {f : Frame S} (hf : f ∈ x.frames) :
    ∃ s, (x.world.scheduler home).status? f.unit.id = some s ∧ s.isTerminal = false := by
  obtain ⟨s, hs, hrun, -⟩ := (h.held f hf).status
  exact ⟨s, hs, Status.not_terminal_of_running hrun⟩

theorem Manned.status?_modify (h : Manned home owner issued x) {v w : World S}
    {f : Scheduler S.Rule → Scheduler S.Rule} {id : UnitId} {status : Status}
    (hw : (v.modifyScheduler home f).Akin home w) (hv : v.schedulers = x.world.schedulers)
    (hf : ∀ j, (f (x.world.scheduler home)).status? j =
      if j = id then some status else (x.world.scheduler home).status? j)
    (j : UnitId) : (w.scheduler home).status? j =
      if j = id then some status else (x.world.scheduler home).status? j := by
  have hs : v.scheduler home = x.world.scheduler home := by rw [World.scheduler, hv]; rfl
  rw [hw.status?, World.scheduler_modifyScheduler_self _ (by rw [hv]; exact h.exists_home), hs, hf]

theorem Wired.eq_of_target {w : World S} (h : Wired k issued w) {u v : WorkUnit S.Rule}
    (hu : u ∈ issued) (hv : v ∈ issued) (ht : k.target u.rule = k.target v.rule) : u = v := by
  have hres := h.resolves u hu
  rw [ht, h.resolves v hv] at hres
  exact (Option.some.inj hres).symm

/-- The topmost unit writes its cell and ends; other units and cells are left alone. -/
private theorem fares_settle (hm : Manned home owner issued x) (hk : Wired k issued x.world)
    {f : Frame S} (hf : f ∈ x.frames) {a : CellValue (S.Val (k.target f.unit.rule))}
    {status : Status} {w : World S}
    (hw : ((x.world.setValue _ a).modifyScheduler home fun s => s.settle f.unit status).Akin home w)
    (htop : ∀ s, s.isTerminal = false → Fares S (k.target f.unit.rule) (some s)
      (x.world.cell (k.target f.unit.rule)).value (some status) a)
    {u : WorkUnit S.Rule} (hu : u ∈ issued) :
    Fares S (k.target u.rule) ((x.world.scheduler home).status? u.id)
      (x.world.cell (k.target u.rule)).value ((w.scheduler home).status? u.id)
      (w.cell (k.target u.rule)).value := by
  have hstatus := hm.status?_modify hw rfl
    (Scheduler.status?_settle _ (hm.held f hf).lt_size status) u.id
  rw [hstatus, hw.cell, World.cell_modifyScheduler]
  by_cases hid : u.id = f.unit.id
  · obtain rfl := hm.lists.eq_of_id hu (hm.registered f hf) hid
    obtain ⟨s, hs, ht⟩ := hm.top_status hf
    rw [if_pos rfl, hs, World.cell_setValue_self]
    exact htop s ht
  · have hne : k.target f.unit.rule ≠ k.target u.rule := fun ht =>
      hid (by rw [hk.eq_of_target (hm.registered f hf) hu ht])
    rw [if_neg hid, World.cell_setValue_ne _ _ hne]
    exact .keep _ _

theorem Advance.fares (h : Advance k home owner issued x y) (hm : Manned home owner issued x)
    (hk : Wired k issued x.world) {u : WorkUnit S.Rule} (hu : u ∈ issued) :
    Fares S (k.target u.rule) ((x.world.scheduler home).status? u.id)
      (x.world.cell (k.target u.rule)).value ((y.world.scheduler home).status? u.id)
      (y.world.cell (k.target u.rule)).value := by
  have htop : ∀ {f : Frame S} {rest : List (Frame S)}, x.frames = f :: rest → f ∈ x.frames :=
    fun hf => by rw [hf]; exact List.mem_cons_self
  cases h with
  | note hw =>
    rw [hw.status?, hw.cell]
    exact .keep _ _
  | @start v w hv hwant hc hd hw =>
    rw [hm.status?_modify hw rfl
      (Scheduler.status?_claim _ (Scheduler.lt_size_of_status? _ hc.new) owner), hw.cell]
    split
    · rename_i hid
      rw [hid, hc.new]
      exact .run _ rfl rfl
    · exact .keep _ _
  | @recur v index w hv hwant hon hs hw =>
    obtain ⟨above, f, below, hf, hid, -⟩ := Frame.exists_of_indexOf? hon
    have hmem : f ∈ x.frames := by rw [hf]; simp
    rw [hm.status?_modify hw rfl
      (Scheduler.status?_setStatus _ (hid ▸ (hm.held f hmem).lt_size) .runningRecursive), hw.cell]
    split
    · rename_i hu
      obtain ⟨s, hs, ht⟩ := hm.top_status hmem
      rw [hu, ← hid, hs]
      exact .run _ ht rfl
    · exact .keep _ _
  | look hv => exact .keep _ _
  | @finish y c v outcome p hv hs hy =>
    cases hy with
    | held | failing => exact .keep _ _
    | @fellBack _ _ w ho hval hp hw =>
      rw [hw.status?, hw.cell]
      by_cases hc : c = k.target u.rule
      · subst hc
        rw [World.cell_setValue_self, hval]
        exact .fallBack _
      · rw [World.cell_setValue_ne _ _ hc]
        exact .keep _ _
    | @lost _ w hval hp hw =>
      rw [hw.status?, hw.cell]
      by_cases hc : c = k.target u.rule
      · subst hc
        obtain rfl := Option.some.inj ((hk.resolves u hu).symm.trans hv)
        rw [World.cell_setValue_self]
        change Fares S _ ((x.world.scheduler home).status? u.id) _
          ((x.world.scheduler home).status? u.id) _
        rw [show (x.world.scheduler home).status? u.id = some .fail from hs]
        exact .giveUp hval
      · rw [World.cell_setValue_ne _ _ hc]
        exact .keep _ _
  | @doom f rest w d hf hd hw =>
    rw [hm.status?_modify hw rfl
      (Scheduler.status?_setStatus _ (hm.held f (htop hf)).lt_size .runningWillFail), hw.cell]
    split
    · rename_i hid
      obtain ⟨s, hs, ht⟩ := hm.top_status (htop hf)
      rw [hid, hs]
      exact .run _ ht rfl
    · exact .keep _ _
  | @stop f rest err w hf hw =>
    rw [hm.status?_modify hw rfl (Scheduler.status?_settle _ (hm.held f (htop hf)).lt_size .fail),
      hw.cell]
    split
    · rename_i hid
      obtain ⟨s, hs, ht⟩ := hm.top_status (htop hf)
      rw [hid, hs]
      exact .stop _ ht
    · exact .keep _ _
  | succeed hf hd hh hfollows hw =>
    exact fares_settle hm hk (htop hf) hw (fun s hs => .succeed _ _ hs) hu
  | defer hf hd hh hw => exact fares_settle hm hk (htop hf) hw (fun s hs => .defer _ _ hs) hu
  | lose hf hd hfollows hw => exact fares_settle hm hk (htop hf) hw (fun s hs => .lose _ hs) hu

theorem Advance.value_eq_of_bare (h : Advance k home owner issued x y)
    (hm : Manned home owner issued x) (hk : Wired k issued x.world) {c : S.Key}
    (hc : (x.world.cell c).resolver = none) : (y.world.cell c).value = (x.world.cell c).value := by
  have hset : ∀ {f : Frame S} {rest : List (Frame S)} {a : CellValue (S.Val (k.target f.unit.rule))}
      {w : World S}, x.frames = f :: rest →
      (∀ c, w.cell c = (x.world.setValue (k.target f.unit.rule) a).cell c) →
      (w.cell c).value = (x.world.cell c).value := by
    intro f rest a w hf hw
    have hres := hk.resolves f.unit (hm.registered f (by rw [hf]; exact List.mem_cons_self))
    rw [hw, World.cell_setValue_ne]
    rintro rfl
    rw [hc] at hres
    cases hres
  cases h with
  | note hw | start hu hwant hd' hd hw | recur hu hwant hon hs hw | doom d hf hd hw | stop hf hw =>
    exact congrArg Cell.value (hw.cell c)
  | look hv => rfl
  | @finish y d v outcome p hv hs hy =>
    have hne : d ≠ c := by
      rintro rfl
      rw [hc] at hv
      cases hv
    cases hy with
    | held | failing => rfl
    | fellBack ho hval hp hw | lost hval hp hw =>
      rw [hw.cell]
      exact congrArg Cell.value (World.cell_setValue_ne _ _ hne)
  | succeed hf hd hh hfollows hw => exact hset hf hw.cell
  | defer hf hd hh hw => exact hset hf hw.cell
  | lose hf hd hfollows hw => exact hset hf hw.cell

/-! ## Final values -/

/-- How the status of a unit and the value of its cell go together. -/
structure Agrees (c : S.Key) (s : Option Status) (v : CellValue (S.Val c)) : Prop where
  ended : ∀ a, v = .forced a → ∃ t, s = some t ∧ t.isTerminal = true
  filled : s = some .success → ∃ a, v = .forced a
  lost : s = some .fail → ∀ a, v = .forced a → a = S.sentinel c

theorem Agrees.not_forced {c : S.Key} {s : Status} {v : CellValue (S.Val c)}
    (h : Agrees c (some s) v) (hs : s.isTerminal = false) (a : S.Val c) : v ≠ .forced a := by
  intro hv
  obtain ⟨t, ht, hterminal⟩ := h.ended a hv
  rw [← Option.some.inj ht, hs] at hterminal
  cases hterminal

theorem Fares.agrees {c : S.Key} {s s' : Option Status} {v v' : CellValue (S.Val c)}
    (hf : Fares S c s v s' v') (h : Agrees c s v) : Agrees c s' v' := by
  cases hf with
  | keep => exact h
  | run v hs hs' =>
    refine ⟨fun a ha => absurd ha (h.not_forced hs a), fun hsuccess => ?_, fun hfail => ?_⟩
    · cases Option.some.inj hsuccess
      cases hs'
    · cases Option.some.inj hfail
      cases hs'
  | fallBack s =>
    refine ⟨nofun, fun hsuccess => ?_, fun _ => nofun⟩
    obtain ⟨a, ha⟩ := h.filled hsuccess
    cases ha
  | giveUp hv =>
    refine ⟨fun a _ => ⟨.fail, rfl, rfl⟩, nofun, fun _ a ha => ?_⟩
    cases ha
    rfl
  | stop v hs => exact ⟨fun a _ => ⟨.fail, rfl, rfl⟩, nofun, fun _ a ha => absurd ha (h.not_forced hs a)⟩
  | succeed v a hs => exact ⟨fun b _ => ⟨.success, rfl, rfl⟩, fun _ => ⟨a, rfl⟩, nofun⟩
  | defer v a hs => exact ⟨nofun, nofun, nofun⟩
  | lose v hs =>
    refine ⟨fun a _ => ⟨.fail, rfl, rfl⟩, nofun, fun _ a ha => ?_⟩
    cases ha
    rfl

structure Stored (k : Rulebook m) (home : SchedulerId) (issued : List (WorkUnit S.Rule))
    (w : World S) : Prop where
  bare : ∀ c, (w.cell c).resolver = none → (w.cell c).value = .unset
  agrees : ∀ u ∈ issued, Agrees (k.target u.rule) ((w.scheduler home).status? u.id)
    (w.cell (k.target u.rule)).value

theorem Stored.advance (h : Stored k home issued x.world) (hm : Manned home owner issued x)
    (hk : Wired k issued x.world) (ha : Advance k home owner issued x y) :
    Stored k home issued y.world := by
  refine ⟨fun c hc => ?_, fun u hu => (ha.fares hm hk hu).agrees (h.agrees u hu)⟩
  rw [(ha.wiring_eq c).1] at hc
  rw [ha.value_eq_of_bare hm hk hc]
  exact h.bare c hc

/-! ## Cycles on the stack -/

namespace Frame

/-- Below a unit that is part of a cycle stands another one, or the unit that
was entered again. -/
def Joined (re : UnitId → Prop) : List (Frame S) → Prop
  | [] => True
  | g :: rest => (∀ head, g.head = some head → ∃ f below, rest = f :: below ∧
      ((∃ lower ≤ head, f.head = some lower) ∨ (head = below.length ∧ re f.unit.id))) ∧
    Joined re rest

theorem Joined.mono {re re' : UnitId → Prop} {frames : List (Frame S)} (h : Joined re frames)
    (hre : ∀ f ∈ frames, re f.unit.id → re' f.unit.id) : Joined re' frames := by
  induction frames with
  | nil => trivial
  | cons g rest ih =>
    refine ⟨fun head hg => ?_, ih h.2 fun f hf => hre f (List.mem_cons_of_mem _ hf)⟩
    obtain ⟨f, below, rfl, hlower | ⟨hhead, hf⟩⟩ := h.1 head hg
    · exact ⟨f, below, rfl, .inl hlower⟩
    · exact ⟨f, below, rfl, .inr ⟨hhead, hre f (by simp) hf⟩⟩

theorem head_joinCycle (index : Nat) (f : Frame S) :
    ∃ head ≤ index, (f.joinCycle index).head = some head := by
  unfold joinCycle
  cases f.head with
  | none => exact ⟨index, Nat.le_refl _, rfl⟩
  | some head => exact ⟨min head index, Nat.min_le_right _ _, rfl⟩

/-- Entering a unit again closes the gap between it and the top of the stack. -/
theorem Joined.joinCycle {re : UnitId → Prop} {index : Nat} {above : List (Frame S)} {f : Frame S}
    {below : List (Frame S)} (hi : below.length = index)
    (hheads : HeadsBelow (above ++ f :: below)) (h : Joined re (above ++ f :: below)) :
    Joined (fun id => re id ∨ id = f.unit.id) (above.map (Frame.joinCycle index) ++ f :: below) := by
  induction above with
  | nil => exact h.mono fun _ _ hre => .inl hre
  | cons g rest ih =>
    refine ⟨fun head hg => ?_, ih hheads.2 h.2⟩
    -- The head of `g` is the lower one of its old head and `index`.
    have hold : head = index ∨ g.head = some head ∧ head < index := by
      unfold Frame.joinCycle at hg
      cases hgh : g.head with
      | none =>
        rw [hgh] at hg
        exact .inl (Option.some.inj hg).symm
      | some old =>
        rw [hgh] at hg
        have hmin : min old index = head := Option.some.inj hg
        rcases Nat.lt_or_ge old index with hlt | hge
        · exact .inr ⟨by rw [← hmin, Nat.min_eq_left (Nat.le_of_lt hlt)],
            by rw [← hmin, Nat.min_eq_left (Nat.le_of_lt hlt)]; exact hlt⟩
        · exact .inl (by rw [← hmin, Nat.min_eq_right hge])
    cases rest with
    | nil =>
      refine ⟨f, below, rfl, ?_⟩
      rcases hold with rfl | ⟨hgh, hlt⟩
      · exact .inr ⟨hi.symm, .inr rfl⟩
      · obtain ⟨f', below', heq, hlower | ⟨hhead, -⟩⟩ := h.1 head hgh
        · cases heq
          exact .inl hlower
        · cases heq
          omega
    | cons g' rest =>
      refine ⟨g'.joinCycle index, rest.map (Frame.joinCycle index) ++ f :: below, rfl, .inl ?_⟩
      rcases hold with rfl | ⟨hgh, hlt⟩
      · exact head_joinCycle head g'
      · obtain ⟨f', below', heq, ⟨lower, hle, hlower⟩ | ⟨hhead, -⟩⟩ := h.1 head hgh
        · cases heq
          refine ⟨min lower index, by omega, ?_⟩
          rw [Frame.joinCycle, hlower]
        · cases heq
          simp at hhead
          omega

end Frame

def History.Reentered (log : History S) (id : UnitId) : Prop :=
  (log.run id).reentered = true

theorem History.Reentered.append {log new : History S} {id : UnitId} (h : log.Reentered id)
    (hnew : .started id ∉ new) : (log ++ new).Reentered id :=
  (reentered_run_append hnew).2 (.inl h)

theorem Frame.Joined.advance (h : Frame.Joined x.log.Reentered x.frames)
    (hm : Manned home owner issued x) (ha : Advance k home owner issued x y) :
    Frame.Joined y.log.Reentered y.frames := by
  have hgrow : ∀ {new : History S} {frames : List (Frame S)}, (∀ id, .started id ∉ new) →
      Frame.Joined x.log.Reentered frames → Frame.Joined (x.log ++ new).Reentered frames :=
    fun hnew hj => hj.mono fun f _ hre => hre.append (hnew f.unit.id)
  have htail : ∀ {f : Frame S} {rest : List (Frame S)}, x.frames = f :: rest →
      Frame.Joined x.log.Reentered rest := fun hf => by
    rw [hf] at h
    exact h.2
  cases ha with
  | note hw => exact h
  | @start u w hu hwant hc hd hw =>
    refine ⟨nofun, h.mono fun f hf hre => hre.append fun hmem => ?_⟩
    exact Frame.indexOf?_eq_none_iff.1 hc.off f hf
      (Occurrence.started.inj (List.mem_singleton.1 hmem))
  | @recur u index w hu hwant hon hs hw =>
    obtain ⟨above, f, below, hf, hid, hl⟩ := Frame.exists_of_indexOf? hon
    have hheads := hm.heads
    rw [hf] at h hheads ⊢
    rw [Frame.joinCycleAbove_append above f hl]
    refine (h.joinCycle hl hheads).mono fun g _ hre => ?_
    rcases hre with hre | hre
    · exact hre.append (by simp)
    · exact (History.reentered_run_append (by simp)).2 (.inr (by simp [hre, hid]))
  | look hv => exact hgrow (by simp) h
  | finish hu hs hy =>
    cases hy with
    | held | failing | fellBack => exact hgrow (by simp) h
    | lost hval hp hw =>
      rw [List.append_assoc]
      exact hgrow (by simp [World.announcing]) h
  | doom d hf hd hw =>
    rw [hf] at h
    exact hgrow (by simp) h
  | stop hf hw => exact hgrow (by simp) (htail hf)
  | succeed hf hd hh hfollows hw =>
    rw [List.append_assoc]
    exact hgrow (by simp [World.announcing]) (htail hf)
  | defer hf hd hh hw =>
    rw [List.append_assoc]
    exact hgrow (by simp) (htail hf)
  | lose hf hd hfollows hw =>
    rw [List.append_assoc, List.append_assoc]
    exact hgrow (by simp [World.announcing]) (htail hf)

/-! ## Moments -/

structure Sound (k : Rulebook m) (home : SchedulerId) (owner : EvaluatorId)
    (issued : List (WorkUnit S.Rule)) (x : Moment S) : Prop where
  manned : Manned home owner issued x
  wired : Wired k issued x.world
  stored : Stored k home issued x.world
  joined : Frame.Joined x.log.Reentered x.frames

abbrev Advances (k : Rulebook m) (home : SchedulerId) (owner : EvaluatorId)
    (issued : List (WorkUnit S.Rule)) : Moment S → Moment S → Prop :=
  Relation.ReflTransGen (Advance k home owner issued)

namespace Sound

theorem advance (h : Sound k home owner issued x) (ha : Advance k home owner issued x y) :
    Sound k home owner issued y :=
  ⟨(h.manned.advance ha).1, h.wired.advance ha, h.stored.advance h.manned h.wired ha,
    h.joined.advance h.manned ha⟩

theorem advances (h : Sound k home owner issued x) (ha : Advances k home owner issued x y) :
    Sound k home owner issued y := by
  induction ha with
  | refl => exact h
  | tail _ ha ih => exact ih.advance ha

theorem status_of_terminal (h : Sound k home owner issued x)
    (ha : Advances k home owner issued x y) {id : UnitId} {s : Status}
    (hs : (x.world.scheduler home).status? id = some s) (ht : s.isTerminal = true) :
    (y.world.scheduler home).status? id = some s := by
  induction ha with
  | refl => exact hs
  | tail hb ha ih =>
    rcases ((h.advances hb).manned.advance ha).2 id with hsame | ⟨hnone, -⟩ | ⟨a, b, ha', -, hab⟩
    · rw [hsame, ih]
    · rw [ih] at hnone
      cases hnone
    · rw [ih] at ha'
      cases ha'
      cases s with
      | success | fail => cases b <;> cases hab
      | new | running | runningRecursive | runningWillFail => cases ht

end Sound

end Attribution.Engine
