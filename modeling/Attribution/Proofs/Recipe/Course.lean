import Attribution.Proofs.Recipe.Reading
/-!
# Courses of events

A course is a session over recipes: rules are set for cells, hooks are added to
cells, and callers read cells, one after the other and each with an evaluator of
their own. A cell gets one rule at most, and nothing else writes to cells.

* `Course.sound` says that the invariants hold between any two operations;
* `Sound.told` says what a read by a caller has come to when it has ended;
* `Course.cycles_settle` says that cycles do not keep a read from coming to a value.
-/

namespace Attribution.Engine

variable {S : Schema} {m : Model S} {k : Rulebook m} {home : SchedulerId} {owner : EvaluatorId}
  {issued : List (WorkUnit S.Rule)} {log log' : History S} {w w' : World S} {x y : Moment S}

/-- The scheduler exists and has no units, and nothing was done to any cell. -/
structure Blank (home : SchedulerId) (w : World S) : Prop where
  exists_home : home < w.schedulers.size
  no_units : (w.scheduler home).entries.size = 0
  no_phases : (w.scheduler home).phases = {}
  no_cells : ∀ c, w.cell c = {}

structure Evaluator.Begins {α : Type} (e : Evaluator S α) (home : SchedulerId) (a : Action S α) :
    Prop where
  idle : e.Idle home
  focus : e.focus = .act (.top a)

def Action.start {α : Type} (a : Action S α) (home : SchedulerId) : Evaluator S α :=
  { id := 0, home, focus := .act (.top a) }

theorem Action.begins_start {α : Type} (a : Action S α) (home : SchedulerId) :
    (a.start home).Begins home a :=
  ⟨⟨rfl, rfl, rfl, rfl⟩, rfl⟩

/-- The history, the world and the units of a session between two operations. -/
inductive Course (k : Rulebook m) (home : SchedulerId) :
    History S → World S → List (WorkUnit S.Rule) → Prop where
  | start (w : World S) (h : Blank home w) : Course k home [] w []
  | rule {log log' : History S} {w w' : World S} {issued : List (WorkUnit S.Rule)}
    {u : WorkUnit S.Rule} {e e' : Evaluator S (WorkUnit S.Rule)} {label : String}
    {phase : Option Phase} {rule : S.Rule} (hc : Course k home log w issued)
    (hfree : (w.cell (k.target rule)).resolver = none)
    (he : e.Begins home (Action.setRule (k.target rule) label phase rule))
    (ht : Traces m log w e log' w' e') (hu : e'.Gave u) : Course k home log' w' (issued ++ [u])
  | hook {log log' : History S} {w w' : World S} {issued : List (WorkUnit S.Rule)} {c : S.Key}
    {hook : S.Hook} {e e' : Evaluator S Unit} (hc : Course k home log w issued)
    (he : e.Begins home (Action.request (.addHook c hook))) (ht : Traces m log w e log' w' e')
    (hu : e'.Gave ()) : Course k home log' w' issued
  | get {log log' : History S} {w w' : World S} {issued : List (WorkUnit S.Rule)} {c : S.Key}
    {r : Except Error (Probe (S.Val c))} {e e' : Evaluator S (Except Error (Probe (S.Val c)))}
    (hc : Course k home log w issued) (he : e.Begins home (Action.probe c))
    (ht : Traces m log w e log' w' e') (hr : e'.Gave r) :
    Course k home (log' ++ [.gave c r]) w' issued
  /-- What is neither in the table nor in a cell may change in between. -/
  | pass {log : History S} {w w' : World S} {issued : List (WorkUnit S.Rule)}
    (hc : Course k home log w issued) (hw : w.Like home w') : Course k home log w' issued

/-! ## The operations -/

/-- Whatever a caller's action comes to, it has come to when it has given a result. -/
theorem Comes.of_gave {α : Type} {P : History S → World S → Evaluator S α → Prop}
    {e e' : Evaluator S α} {r : α} (h : Comes m P log w e) (ht : Traces m log w e log' w' e')
    (hr : e'.Gave r) (hfinal : ∀ log w e, P log w e → ∀ pick, e.step m pick w = none) :
    P log' w' e' :=
  (h.of_traces hfinal ht).result (hr.step_eq_none m 0 w')

theorem Evaluator.Begins.eq {α : Type} {e : Evaluator S α} {a : Action S α}
    (h : e.Begins home a) :
    e = { id := e.id, home, worker := e.worker, focus := .act (.top a) } := by
  obtain ⟨⟨h1, h2, h3, h4⟩, h5⟩ := h
  obtain ⟨id, home', worker, frames, levels, writes, focus⟩ := e
  subst h1 h2 h3 h4 h5
  rfl

theorem world_of_setRule {c : S.Key} {label : String} {phase : Option Phase} {rule : S.Rule}
    {u : WorkUnit S.Rule} {e e' : Evaluator S (WorkUnit S.Rule)}
    (he : e.Begins home (Action.setRule c label phase rule))
    (ht : Traces m log w e log' w' e') (hu : e'.Gave u) :
    log' = log ++ [.wrote c .unset] ∧ u = (w.register home label phase rule).2 ∧
      w' = (w.register home label phase rule).1.resolveWith c u := by
  have hcomes : Comes m (fun log' w' e' => e'.Gave (w.register home label phase rule).2 ∧
      log' = log ++ [.wrote c .unset] ∧ w' = (w.register home label phase rule).1.resolveWith c
        (w.register home label phase rule).2) log w e := by
    rw [he.eq]
    refine .silent _ _ (fun pick => rfl) rfl (.next _ _ _ (fun pick => rfl) rfl
      (.silent _ _ (fun pick => rfl) rfl (.here ⟨⟨rfl, rfl⟩, rfl, rfl⟩)))
  obtain ⟨hgave, hlog, hw⟩ := hcomes.of_gave ht hu fun _ w _ h pick =>
    h.1.step_eq_none m pick w
  have heq := hgave.focus.symm.trans hu.focus
  cases heq
  exact ⟨hlog, rfl, hw⟩

theorem world_of_addHook {c : S.Key} {hook : S.Hook} {e e' : Evaluator S Unit}
    (he : e.Begins home (Action.request (.addHook c hook))) (ht : Traces m log w e log' w' e')
    (hu : e'.Gave ()) : log' = log ++ [.hooked c hook] ∧ w' = w.addHook c hook := by
  have hcomes : Comes m (fun log' w' e' => e'.Gave () ∧ log' = log ++ [.hooked c hook] ∧
      w' = w.addHook c hook) log w e := by
    rw [he.eq]
    exact .next _ _ _ (fun pick => rfl) rfl
      (.silent _ _ (fun pick => rfl) rfl (.here ⟨⟨rfl, rfl⟩, rfl, rfl⟩))
  exact (hcomes.of_gave ht hu fun _ w _ h pick => h.1.step_eq_none m pick w).2

theorem Sound.told {c : S.Key} {r : Except Error (Probe (S.Val c))}
    {e e' : Evaluator S (Except Error (Probe (S.Val c)))}
    (h : Sound k home e.id issued ⟨log, w, []⟩) (he : e.Begins home (Action.probe c))
    (ht : Traces m log w e log' w' e') (hr : e'.Gave r) :
    Told k home e.id issued ⟨log, w, []⟩ c r ⟨log', w', []⟩ := by
  have hcomes := comes_read h rfl he.idle he.focus
  obtain ⟨r', frames, hR, rfl⟩ := hcomes.of_gave ht hr fun _ _ _ ⟨r', frames, _, he'⟩ => by
    intro pick
    rw [he', Evaluator.step, he.idle.writes]
  cases hr.focus
  obtain rfl : frames = [] := hR.frames
  exact hR

/-! ## Sessions go on -/

namespace Course

theorem setRule (h : Course k home log w issued) (rule : S.Rule) (label : String)
    (phase : Option Phase) (hfree : (w.cell (k.target rule)).resolver = none) :
    Course k home (log ++ [.wrote (k.target rule) .unset])
      ((w.register home label phase rule).1.resolveWith (k.target rule)
        (w.register home label phase rule).2)
      (issued ++ [(w.register home label phase rule).2]) := by
  have ht := ((Action.setRule (k.target rule) label phase rule).start home).traces_run m 3 log w
  exact .rule h hfree (Action.begins_start _ home) ht ⟨rfl, rfl⟩

theorem addHook (h : Course k home log w issued) (c : S.Key) (hook : S.Hook) :
    Course k home (log ++ [.hooked c hook]) (w.addHook c hook) issued := by
  have ht := ((Action.request (.addHook c hook)).start home).traces_run m 2 log w
  exact .hook h (Action.begins_start _ home) ht ⟨rfl, rfl⟩

theorem probe (h : Course k home log w issued) (c : S.Key) (limit : Nat)
    {r : Except Error (Probe (S.Val c))}
    (hr : (((Action.probe c).start home).run m limit w).2.Gave r) :
    Course k home (log ++ ((Action.probe c).start home).watch m limit w ++ [.gave c r])
      (((Action.probe c).start home).run m limit w).1 issued :=
  .get h (Action.begins_start _ home) (Evaluator.traces_run _ m limit log w) hr

end Course

/-! ## Between operations -/

/-- Nothing is on the stack, so only the table and the cells matter. -/
theorem sound_at_rest (hhome : home < w.schedulers.size)
    (hidle : ∀ id s, (w.scheduler home).status? id = some s → s.isRunning = false)
    (hl : (w.scheduler home).Lists home issued) (hk : Wired k issued w)
    (hs : Stored k home issued w) (log : History S) (owner : EvaluatorId) :
    Sound k home owner issued ⟨log, w, []⟩ := by
  refine ⟨⟨hhome, List.nodup_nil, nofun, nofun, fun id s hstatus hrun => ?_, trivial, hl⟩, hk, hs,
    trivial⟩
  rw [hidle id s hstatus] at hrun
  cases hrun

theorem Sound.idle (h : Sound k home owner issued ⟨log, w, []⟩) {id : UnitId} {s : Status}
    (hs : (w.scheduler home).status? id = some s) : s.isRunning = false := by
  cases hrun : s.isRunning with
  | false => rfl
  | true =>
    obtain ⟨f, hf, -⟩ := h.manned.running id s hs hrun
    cases hf

theorem Sound.like (h : Sound k home owner issued ⟨log, w, []⟩) (hw : w.Like home w')
    (log' : History S) (owner' : EvaluatorId) : Sound k home owner' issued ⟨log', w', []⟩ := by
  refine sound_at_rest (by rw [hw.size]; exact h.manned.exists_home)
    (fun id s hs => h.idle (by rw [← hw.status?]; exact hs)) (h.manned.lists.congr hw.table)
    ⟨fun c u hu => h.wired.serves c u (by rw [← hw.cell]; exact hu),
      fun u hu => by rw [hw.cell]; exact h.wired.resolves u hu⟩
    ⟨fun c hc => ?_, fun u hu => ?_⟩ log' owner'
  · rw [hw.cell] at hc ⊢
    exact h.stored.bare c hc
  · rw [hw.cell, hw.status?]
    exact h.stored.agrees u hu

theorem Blank.sound (h : Blank home w) (k : Rulebook m) (log : History S) (owner : EvaluatorId) :
    Sound k home owner [] ⟨log, w, []⟩ := by
  have hstatus : ∀ id, (w.scheduler home).status? id = none := fun id =>
    ((w.scheduler home).status?_eq_none_iff id).2 (by rw [h.no_units]; exact Nat.zero_le id)
  refine sound_at_rest h.exists_home (fun id s hs => ?_)
    (Scheduler.lists_nil h.no_units h.no_phases) ⟨fun c u hu => ?_, List.forall_mem_nil _⟩
    ⟨fun c _ => ?_, List.forall_mem_nil _⟩ log owner
  · rw [hstatus] at hs
    cases hs
  · rw [h.no_cells] at hu
    cases hu
  · rw [h.no_cells]

structure World.Ruled (home : SchedulerId) (w : World S) (c : S.Key) (u : WorkUnit S.Rule)
    (w' : World S) : Prop where
  size : w'.schedulers.size = w.schedulers.size
  scheduler : w'.scheduler home = (w.scheduler home).register u
  self : w'.cell c = ⟨.unset, some u, (w.cell c).hooks⟩
  other : ∀ d, c ≠ d → w'.cell d = w.cell d

theorem World.ruled (w : World S) (hhome : home < w.schedulers.size) (c : S.Key) (label : String)
    (phase : Option Phase) (rule : S.Rule) :
    w.Ruled home c (w.register home label phase rule).2
      ((w.register home label phase rule).1.resolveWith c (w.register home label phase rule).2) where
  size := w.size_modifyScheduler home _
  scheduler := w.scheduler_modifyScheduler_self hhome _
  self := cell_modifyCell_self _ _ _
  other _ hd := cell_modifyCell_ne _ _ hd

theorem Sound.setRule (h : Sound k home owner issued ⟨log, w, []⟩) (label : String)
    (phase : Option Phase) {rule : S.Rule} (hfree : (w.cell (k.target rule)).resolver = none)
    (hw : w.Ruled home (k.target rule) ((w.scheduler home).nextUnit home label phase rule) w')
    (log' : History S) (owner' : EvaluatorId) :
    Sound k home owner' (issued ++ [(w.scheduler home).nextUnit home label phase rule])
      ⟨log', w', []⟩ := by
  have hne : ∀ v ∈ issued, k.target rule ≠ k.target v.rule := fun v hv heq => by
    have hres := h.wired.resolves v hv
    rw [← heq, hfree] at hres
    cases hres
  have hnew : ((w.scheduler home).register ((w.scheduler home).nextUnit home label phase
      rule)).status? ((w.scheduler home).nextUnit home label phase rule).id = some .new :=
    (Scheduler.status?_register _ _ _).trans (if_pos rfl)
  refine sound_at_rest (by rw [hw.size]; exact h.manned.exists_home) (fun id s hs => ?_) ?_
    ⟨fun c v hv => ?_, fun v hv => ?_⟩ ⟨fun c hc => ?_, fun v hv => ?_⟩ log' owner'
  · rw [hw.scheduler, Scheduler.status?_register] at hs
    split at hs
    · cases hs
      rfl
    · exact h.idle hs
  · rw [hw.scheduler]
    exact h.manned.lists.register label phase rule
  · by_cases hc : k.target rule = c
    · subst hc
      rw [hw.self] at hv
      cases hv
      exact ⟨List.mem_append_right _ (List.mem_singleton.2 rfl), rfl⟩
    · rw [hw.other c hc] at hv
      obtain ⟨hmem, ht⟩ := h.wired.serves c v hv
      exact ⟨List.mem_append_left _ hmem, ht⟩
  · rcases List.mem_append.1 hv with hv | hv
    · rw [hw.other _ (hne v hv)]
      exact h.wired.resolves v hv
    · cases List.mem_singleton.1 hv
      exact congrArg Cell.resolver hw.self
  · by_cases hd : k.target rule = c
    · subst hd
      rw [hw.self] at hc
      cases hc
    · rw [hw.other c hd] at hc ⊢
      exact h.stored.bare c hc
  · rcases List.mem_append.1 hv with hv | hv
    · rw [hw.scheduler, Scheduler.status?_register,
        if_neg (Nat.ne_of_lt (h.manned.lists.lt_size hv)), hw.other _ (hne v hv)]
      exact h.stored.agrees v hv
    · cases List.mem_singleton.1 hv
      have hagrees : Agrees (k.target rule) (some .new) (w'.cell (k.target rule)).value := by
        rw [hw.self]
        exact ⟨nofun, nofun, nofun⟩
      rw [hw.scheduler, hnew]
      exact hagrees

theorem World.addHook_wiring (w : World S) (c : S.Key) (hook : S.Hook) (d : S.Key) :
    ((w.addHook c hook).cell d).value = (w.cell d).value ∧
      ((w.addHook c hook).cell d).resolver = (w.cell d).resolver := by
  by_cases hd : c = d
  · subst hd
    rw [World.addHook, World.cell_modifyCell_self]
    exact ⟨rfl, rfl⟩
  · rw [World.addHook, World.cell_modifyCell_ne _ _ hd]
    exact ⟨rfl, rfl⟩

theorem Sound.addHook (h : Sound k home owner issued ⟨log, w, []⟩) (c : S.Key) (hook : S.Hook)
    (log' : History S) (owner' : EvaluatorId) :
    Sound k home owner' issued ⟨log', w.addHook c hook, []⟩ := by
  have hcell := w.addHook_wiring c hook
  refine sound_at_rest (w := w.addHook c hook) h.manned.exists_home (fun id s hs => h.idle hs)
    h.manned.lists
    ⟨fun d u hu => h.wired.serves d u (by rw [← (hcell d).2]; exact hu),
      fun u hu => by rw [(hcell _).2]; exact h.wired.resolves u hu⟩
    ⟨fun d hd => ?_, fun u hu => ?_⟩ log' owner'
  · rw [(hcell d).1]
    exact h.stored.bare d (by rw [← (hcell d).2]; exact hd)
  · rw [(hcell _).1]
    exact h.stored.agrees u hu

theorem Course.sound (h : Course k home log w issued) (owner : EvaluatorId) :
    Sound k home owner issued ⟨log, w, []⟩ := by
  induction h generalizing owner with
  | start w h => exact h.sound k [] owner
  | rule hc hfree he ht hu ih =>
    obtain ⟨-, rfl, rfl⟩ := world_of_setRule he ht hu
    exact (ih 0).setRule _ _ hfree (World.ruled _ (ih 0).manned.exists_home _ _ _ _) _ owner
  | hook hc he ht hu ih =>
    obtain ⟨-, rfl⟩ := world_of_addHook he ht hu
    exact (ih 0).addHook _ _ _ owner
  | @get log log' w w' issued c r e e' hc he ht hr ih =>
    exact ((ih e.id).advances ((ih e.id).told he ht hr).advances).like (.refl w') _ owner
  | pass hc hw ih => exact (ih 0).like hw _ owner

/-! ## Cycles -/

namespace Course

variable {c : S.Key} {u : WorkUnit S.Rule} {e : Evaluator S (Except Error (Probe (S.Val c)))}

/-- **No cycle stands in the way of a read.** However the rules of cells without phases
read each other, a caller who reads a cell gets a value, as long as no rule stops by
itself and there is room for every unit on the stack. The unit of the cell has ended
then. -/
theorem cycles_settle (h : Course k home log w issued) (hphase : ∀ v ∈ issued, v.phase = none)
    (hrules : ∀ v ∈ issued,
      (k.recipe v.rule).Steady fun d => ∃ v' ∈ issued, k.target v'.rule = d)
    (hroom : issued.length ≤ (w.scheduler home).limits.maxDepth)
    (hu : (w.cell c).resolver = some u) (he : e.Begins home (Action.probe c)) :
    Ends m (fun w' e' => (∃ p, e'.Gave (.ok p)) ∧ (w'.cell c).resolver = some u ∧
      ((w'.scheduler home).status? u.id = some .success ∨
        (w'.scheduler home).status? u.id = some .fail)) w e := by
  have hsound := h.sound e.id
  obtain ⟨hmem, rfl⟩ := hsound.wired.serves c u hu
  refine (comes_read hsound rfl he.idle he.focus).ends.mono ?_
  rintro w' e' ⟨log', r, frames, htold, rfl⟩
  obtain ⟨p, rfl⟩ := htold.smooth ⟨hphase, hrules, hroom⟩ ⟨u, hmem, rfl⟩
  have hlater := hsound.advances htold.advances
  refine ⟨⟨p, rfl, he.idle.writes⟩, hlater.wired.resolves u hmem, ?_⟩
  obtain ⟨s, hs, hterminal⟩ := (hlater.stored.agrees u hmem).ended p.value (htold.value p rfl)
  cases s with
  | success => exact .inl hs
  | fail => exact .inr hs
  | new | running | runningRecursive | runningWillFail => cases hterminal

/-- Two cells, each of which reads both, and one of which fails. -/
private abbrev entangled (r : Nat) : Recipe sheet Nat :=
  .probe (0 : Nat) fun
    | .error x => .stop x
    | .ok p => .probe (1 : Nat) fun
      | .error x => .stop x
      | .ok q => if r = 0 then .done (p.value + q.value : Nat)
        else .fail ⟨.ruleViolation, "entangled", ⟨1, 1⟩⟩ (.done (0 : Nat))

/-- There is room for the two units and no more. -/
theorem cycles_settle_entangled :
    ∃ (log : History sheet) (w : World sheet) (issued : List (WorkUnit Nat)) (u : WorkUnit Nat),
      Course (Recipe.rulebook id entangled) 0 log w issued ∧
      (w.scheduler 0).limits.maxDepth = 2 ∧ issued.length = 2 ∧
      (w.cell (0 : Nat)).resolver = some u ∧
      Ends (Recipe.model id entangled) (fun w' e' => (∃ p, e'.Gave (.ok p)) ∧
        (w'.cell (0 : Nat)).resolver = some u ∧ ((w'.scheduler 0).status? u.id = some .success ∨
          (w'.scheduler 0).status? u.id = some .fail))
        w ((Action.probe (0 : Nat)).start 0) := by
  have hblank : Blank (S := sheet) 0 { env := (), schedulers := #[{ limits := { maxDepth := 2 } }] } :=
    ⟨by decide, rfl, rfl, fun _ => rfl⟩
  have h := ((Course.start (k := Recipe.rulebook (S := sheet) id entangled) _ hblank).setRule
    (0 : Nat) "a" none rfl).setRule (1 : Nat) "b" none rfl
  refine ⟨_, _, _, _, h, rfl, rfl, rfl, h.cycles_settle ?_ ?_ (by decide) rfl
    (Action.begins_start _ 0)⟩
  · simp only [List.nil_append, List.cons_append, List.mem_cons, List.not_mem_nil, or_false,
      forall_eq_or_imp, forall_eq]
    exact ⟨rfl, rfl⟩
  · have hsteady : ∀ {P : Nat → Prop} (r : Nat), P 0 → P 1 → (entangled r).Steady P := by
      intro P r hzero hone
      refine ⟨hzero, fun p => ⟨hone, fun q => ?_⟩⟩
      dsimp only
      split
      · trivial
      · trivial
    intro v _
    exact hsteady v.rule ⟨_, List.mem_cons_self, rfl⟩ ⟨_, List.mem_cons_of_mem _ List.mem_cons_self, rfl⟩

end Course

end Attribution.Engine
