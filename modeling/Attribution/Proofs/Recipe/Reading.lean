import Attribution.Proofs.Recipe.Sound
import Mathlib.Data.List.Nodup
import Mathlib.Data.List.Perm.Subperm
/-!
# Reading cells

Whoever reads a cell gets an answer. While the rule of a cell runs, the stack is
one unit higher than before, and a stack holds every unit at most once, so the
units that are not on it bound how deep reads lead. At a barrier, every unit
that is run before goes to its end, and there are only so many units.

* `Replied` is what asking for a unit comes to, and `enters` says that it always
  comes to that; where nothing can go wrong (`Smooth`), it is no error;
* `comes_read` is the same for a caller who reads a cell: the evaluation ends,
  and if it gives a value, then that is the final value of the cell.
-/

namespace Attribution.Engine

variable {S : Schema} {m : Model S} {k : Rulebook m} {home : SchedulerId} {owner : EvaluatorId}
  {issued : List (WorkUnit S.Rule)} {x y z : Moment S} {base rest : List (Frame S)}
  {u : WorkUnit S.Rule} {r : Except Error Attempt} {n : Nat}

/-! ## What happens above a stack -/

/-- A frame up to the cycles that it is part of. -/
def Frame.core (f : Frame S) : Frame S :=
  { f with head := none }

theorem Frame.cores_joinCycleAbove (index : Nat) (frames : List (Frame S)) :
    (joinCycleAbove index frames).map core = frames.map core := by
  induction frames with
  | nil => rfl
  | cons f rest ih =>
    rw [joinCycleAbove]
    split
    · rw [List.map_cons, List.map_cons, ih]
      rfl
    · rfl

/-- Nothing is done by the units of a stack, which becomes `rest`. -/
structure Above (base rest : List (Frame S)) (x y : Moment S) : Prop where
  log : ∃ new, y.log = x.log ++ new ∧ ∀ f ∈ base, ∀ o ∈ new, ¬o.By f.unit.id
  same : rest.map Frame.core = base.map Frame.core

namespace Above

theorem of_log {new : History S} (hlog : y.log = x.log ++ new)
    (hnew : ∀ f ∈ base, ∀ o ∈ new, ¬o.By f.unit.id) : Above base base x y :=
  ⟨⟨new, hlog, hnew⟩, rfl⟩

theorem trans {rest' : List (Frame S)} (h : Above base rest x y) (h' : Above rest rest' y z) :
    Above base rest' x z := by
  obtain ⟨⟨new, hlog, hnew⟩, hsame⟩ := h
  obtain ⟨⟨new', hlog', hnew'⟩, hsame'⟩ := h'
  refine ⟨⟨new ++ new', by rw [hlog', hlog, List.append_assoc], fun f hf o ho => ?_⟩,
    hsame'.trans hsame⟩
  rcases List.mem_append.1 ho with ho | ho
  · exact hnew f hf o ho
  · obtain ⟨g, hg, hfg⟩ : ∃ g ∈ rest, g.core = f.core := by
      rw [← List.mem_map, hsame]
      exact List.mem_map_of_mem hf
    have hunit : g.unit = f.unit := show g.core.unit = f.core.unit by rw [hfg]
    rw [← hunit]
    exact hnew' g hg o ho

theorem length_eq (h : Above base rest x y) : rest.length = base.length := by
  have hlength := congrArg List.length h.same
  rwa [List.length_map, List.length_map] at hlength

theorem tail {f : Frame S} (h : Above (f :: base) rest x y) :
    ∃ g rest', rest = g :: rest' ∧ g.core = f.core ∧ Above base rest' x y := by
  obtain ⟨⟨new, hlog, hnew⟩, hsame⟩ := h
  obtain ⟨g, rest', rfl, hg, hrest⟩ := List.map_eq_cons_iff.1 hsame
  exact ⟨g, rest', rfl, hg, ⟨new, hlog, fun f' hf' => hnew f' (List.mem_cons_of_mem _ hf')⟩, hrest⟩

end Above

theorem Rulebook.Wanted.above (h : k.Wanted issued x u) (hb : Above x.frames y.frames x y) :
    k.Wanted issued y u := by
  intro g hg
  cases hx : x.frames with
  | nil =>
    have hlength := hb.length_eq
    rw [hx, List.length_nil, List.length_eq_zero_iff] at hlength
    rw [hlength] at hg
    cases hg
  | cons f rest =>
    rw [hx] at hb
    obtain ⟨g', rest', hy, hcore, -⟩ := hb.tail
    rw [hy] at hg
    cases hg
    have hunit : g.unit = f.unit := show g.core.unit = f.core.unit by rw [hcore]
    rw [hunit]
    exact h f (by rw [hx]; rfl)

def Moment.Calm (x y : Moment S) : Prop :=
  ∀ f err, .ended f (.error err) ∈ y.log → .ended f (.error err) ∈ x.log

/-- Nothing can go wrong: no unit has a phase to wait for, every recipe comes to a value
and reads cells that have a rule, and there is room for all units on the stack. -/
structure Smooth (k : Rulebook m) (home : SchedulerId) (issued : List (WorkUnit S.Rule))
    (w : World S) : Prop where
  unphased : ∀ u ∈ issued, u.phase = none
  steady : ∀ u ∈ issued, (k.recipe u.rule).Steady fun c => ∃ v ∈ issued, k.target v.rule = c
  room : issued.length ≤ (w.scheduler home).limits.maxDepth

theorem Smooth.congr {w w' : World S} (h : Smooth k home issued w)
    (hw : (w'.scheduler home).limits = (w.scheduler home).limits) : Smooth k home issued w' :=
  ⟨h.unphased, h.steady, by rw [hw]; exact h.room⟩

theorem Advances.limits_eq (h : Advances k home owner issued x y) :
    (y.world.scheduler home).limits = (x.world.scheduler home).limits := by
  induction h with
  | refl => rfl
  | tail _ ha ih => rw [ha.limits_eq, ih]

/-- The answer to a request for a unit, made on top of the stack `base`. -/
structure Replied (k : Rulebook m) (home : SchedulerId) (owner : EvaluatorId)
    (issued : List (WorkUnit S.Rule)) (base : List (Frame S)) (x : Moment S) (u : WorkUnit S.Rule)
    (r : Except Error Attempt) (y : Moment S) : Prop where
  advances : Advances k home owner issued x y
  above : Above base y.frames x y
  settles : ∀ outcome, r = .ok outcome → y.Settles home u outcome
  calm : (∀ rule, (k.recipe rule).Plain) → (∃ outcome, r = .ok outcome) → x.Calm y
  smooth : Smooth k home issued x.world → ∃ outcome, r = .ok outcome

theorem Replied.after (h : Replied k home owner issued rest y u r z)
    (ha : Advances k home owner issued x y) (hb : Above base rest x y)
    (hc : (∀ rule, (k.recipe rule).Plain) → (∃ outcome, r = .ok outcome) → x.Calm y) :
    Replied k home owner issued base x u r z where
  advances := ha.trans h.advances
  above := hb.trans h.above
  settles := h.settles
  calm hplain hok f err hmem := hc hplain hok f err (h.calm hplain hok f err hmem)
  smooth hsmooth := h.smooth (hsmooth.congr ha.limits_eq)

/-- Units may be asked for when all but `n` units at most are on the stack. -/
def Enters (k : Rulebook m) (home : SchedulerId) (owner : EvaluatorId)
    (issued : List (WorkUnit S.Rule)) (n : Nat) : Prop :=
  ∀ (x : Moment S) (u : WorkUnit S.Rule), Sound k home owner issued x → u ∈ issued →
    k.Wanted issued x u → issued.length ≤ x.frames.length + n →
    Answered m home owner x (.unit u) (Replied k home owner issued x.frames x u)

/-! ## Recipes -/

theorem Manned.ne_of_mem_rest (h : Manned home owner issued x) {f g : Frame S}
    (hf : x.frames = f :: rest) (hg : g ∈ rest) : f.unit.id ≠ g.unit.id := by
  have hnodup := h.nodup
  rw [hf, List.map_cons, List.nodup_cons] at hnodup
  exact fun heq => hnodup.1 (List.mem_map.2 ⟨g, hg, heq.symm⟩)

theorem Manned.above (h : Manned home owner issued x) {f : Frame S} (hf : x.frames = f :: rest)
    {new : History S} (hlog : y.log = x.log ++ new)
    (hnew : ∀ o ∈ new, ∀ id, o.By id → f.unit.id = id) : Above rest rest x y :=
  .of_log hlog fun _ hg o ho hby => h.ne_of_mem_rest hf hg (hnew o ho _ hby)

private theorem replied_of_settle (h : Sound k home owner issued x) {f : Frame S}
    (hf : x.frames = f :: rest) {v w : World S} {status : Status} {outcome : Attempt}
    {new : History S}
    (hw : (v.modifyScheduler home fun s => s.settle f.unit status).Akin home w)
    (hv : v.schedulers = x.world.schedulers)
    (ha : Advance k home owner issued x ⟨x.log ++ new, w, rest⟩)
    (hnew : ∀ o ∈ new, ∀ id, o.By id → f.unit.id = id)
    (hcalm : ∀ g err, .ended g (.error err) ∉ new)
    (hso : (status = .success ∧ outcome = .success) ∨ (status = .fail ∧ outcome = .fail)) :
    Replied k home owner issued rest x f.unit (.ok outcome) ⟨x.log ++ new, w, rest⟩ := by
  refine ⟨.single ha, h.manned.above hf rfl hnew, fun o ho => ?_, fun _ _ g err hmem => ?_,
    fun _ => ⟨_, rfl⟩⟩
  · have hstatus := h.manned.status?_modify hw hv (Scheduler.status?_settle _
      (h.manned.held f (by rw [hf]; exact List.mem_cons_self)).lt_size status) f.unit.id
    rw [if_pos rfl] at hstatus
    cases ho
    rcases hso with ⟨rfl, rfl⟩ | ⟨rfl, rfl⟩
    all_goals exact hstatus
  · exact (List.mem_append.1 hmem).resolve_right (hcalm g err)

/-- The topmost unit will run again, since it was part of a cycle. -/
private theorem replied_of_defer (h : Sound k home owner issued x) {f : Frame S}
    (hf : x.frames = f :: rest) (hh : f.head ≠ none) {w : World S} {new : History S}
    (ha : Advance k home owner issued x ⟨x.log ++ new, w, rest⟩)
    (hnew : ∀ o ∈ new, ∀ id, o.By id → f.unit.id = id) (hstart : ∀ id, .started id ∉ new)
    (hcalm : ∀ g err, .ended g (.error err) ∉ new) :
    Replied k home owner issued rest x f.unit (.ok .provisional) ⟨x.log ++ new, w, rest⟩ := by
  refine ⟨.single ha, h.manned.above hf rfl hnew, fun o ho => ?_, fun _ _ g err hmem => ?_,
    fun _ => ⟨_, rfl⟩⟩
  · cases ho
    have hjoined := h.joined
    rw [hf] at hjoined
    obtain ⟨head, hhead⟩ := Option.ne_none_iff_exists'.1 hh
    obtain ⟨g, below, rfl, ⟨lower, -, hlower⟩ | ⟨-, hre⟩⟩ := hjoined.1 head hhead
    · exact ⟨g, below, rfl, .inl (by rw [hlower]; nofun)⟩
    · exact ⟨g, below, rfl, .inr (hre.append (hstart _))⟩
  · exact (List.mem_append.1 hmem).resolve_right (hcalm g err)

private theorem answered_end (h : Sound k home owner issued x) {f : Frame S}
    (hf : x.frames = f :: rest) (hfills : f.fills = []) {v : S.Val (k.target f.unit.rule)}
    (hfollows : (k.recipe f.unit.rule).Follows (x.log.run f.unit.id).reads f.doomed (.done v)) :
    Answered m home owner x (.body ((Recipe.done v).body (k.target f.unit.rule)))
      (Replied k home owner issued rest x f.unit) := by
  have hmem : f ∈ x.frames := by rw [hf]; exact List.mem_cons_self
  refine answered_done k.quiet hf hfills (h.wired.resolves _ (h.manned.registered f hmem))
    (fun hd hh w hw => ?_) (fun hd hh w hw => ?_) fun hd w hw => ?_
  · rw [hd] at hfollows
    have ha : Advance k home owner issued x _ := .succeed hf hd hh hfollows hw
    rw [List.append_assoc] at ha ⊢
    exact replied_of_settle h hf hw rfl ha
      (by simp [World.announcing, Occurrence.By, or_imp, forall_and])
      (by simp [World.announcing]) (.inl ⟨rfl, rfl⟩)
  · have ha : Advance k home owner issued x _ := .defer hf hd hh hw
    rw [List.append_assoc] at ha ⊢
    exact replied_of_defer h hf hh ha (by simp [Occurrence.By]) (by simp) (by simp)
  · rw [hd] at hfollows
    have ha : Advance k home owner issued x _ := .lose hf hd hfollows hw
    rw [List.append_assoc, List.append_assoc] at ha ⊢
    exact replied_of_settle h hf hw rfl ha
      (by simp [World.announcing, Occurrence.By, or_imp, forall_and])
      (by simp [World.announcing]) (.inr ⟨rfl, rfl⟩)

/-- The topmost unit works through its recipe, of which `s` is left. -/
structure Working (k : Rulebook m) (u : WorkUnit S.Rule) (s : Recipe S (S.Val (k.target u.rule)))
    (x : Moment S) (f : Frame S) (rest : List (Frame S)) : Prop where
  frames : x.frames = f :: rest
  unit : f.unit = u
  fills : f.fills = []
  follows : (k.recipe u.rule).Follows (x.log.run u.id).reads f.doomed s

namespace Working

variable {s : Recipe S (S.Val (k.target u.rule))} {f : Frame S} {c : S.Key}
  {next : Except Error (Probe (S.Val c)) → Recipe S (S.Val (k.target u.rule))}

theorem reader_eq (h : Working k u s x f rest) : x.reader? = some u.id := by
  rw [Moment.reader?, h.frames, ← h.unit]
  rfl

theorem above (h : Working k u s x f rest) (hb : Above x.frames y.frames x y) :
    ∃ g rest', Working k u s y g rest' ∧ Above rest rest' x y := by
  have hlog := hb.log
  rw [h.frames] at hb hlog
  obtain ⟨g, rest', hg, hcore, hb'⟩ := hb.tail
  have hunit : g.unit = f.unit := show g.core.unit = f.core.unit by rw [hcore]
  have hdoomed : g.doomed = f.doomed := show g.core.doomed = f.core.doomed by rw [hcore]
  have hfills : g.fills = f.fills := show g.core.fills = f.core.fills by rw [hcore]
  obtain ⟨new, hlog, hnew⟩ := hlog
  have hreads := (History.run_append x.log (hnew f List.mem_cons_self)).1
  rw [h.unit] at hreads
  refine ⟨g, rest', ⟨hg, hunit.trans h.unit, hfills.trans h.fills, ?_⟩, hb'⟩
  rw [hlog, hreads, hdoomed]
  exact h.follows

theorem error (h : Working k u (.probe c next) x f rest) (err : Error) :
    Working k u (next (.error err)) x f rest := by
  have hnext := h.follows.trans (.error err (.refl (next (.error err))))
  rw [List.append_nil, Bool.or_false] at hnext
  exact ⟨h.frames, h.unit, h.fills, hnext⟩

theorem finish (h : Working k u (.probe c next) x f rest) {outcome : Attempt}
    {p : Probe (S.Val c)} (hy : x.Finishes home c outcome p y) :
    Working k u (next (.ok p)) y f rest := by
  obtain ⟨before, after, hlog, hbefore, hafter⟩ := hy.log_eq
  have hnext := h.follows.trans (.answer p (.refl (next (.ok p))))
  rw [Bool.or_false] at hnext
  refine ⟨hy.frames_eq.trans h.frames, h.unit, h.fills, ?_⟩
  rw [hlog, History.run_append_read hbefore hafter, h.reader_eq, Run.next, if_pos rfl]
  exact hnext

end Working

theorem Moment.Finishes.above {c : S.Key} {outcome : Attempt} {p : Probe (S.Val c)}
    (h : x.Finishes home c outcome p y) (hm : Manned home owner issued x) {f : Frame S}
    (hf : x.frames = f :: rest) : Above rest rest x y := by
  obtain ⟨before, after, hlog, hbefore, hafter⟩ := h.log_eq
  refine hm.above hf hlog fun o ho id hby => ?_
  rcases List.mem_append.1 ho with ho | ho
  · exact absurd hby ((hbefore o ho).not_by id)
  rcases List.mem_cons.1 ho with rfl | ho
  · have hreader : x.reader? = some f.unit.id := by rw [Moment.reader?, hf]; rfl
    exact Option.some.inj (hreader.symm.trans hby)
  · exact absurd hby ((hafter o ho).not_by id)

theorem Moment.Finishes.calm {c : S.Key} {outcome : Attempt} {p : Probe (S.Val c)}
    (h : x.Finishes home c outcome p y) : x.Calm y := by
  obtain ⟨before, after, hlog, hbefore, hafter⟩ := h.log_eq
  intro f err hmem
  rw [hlog] at hmem
  rcases List.mem_append.1 hmem with hmem | hmem
  · exact hmem
  rcases List.mem_append.1 hmem with hmem | hmem
  · exact (hbefore _ hmem).elim
  rcases List.mem_cons.1 hmem with hmem | hmem
  · cases hmem
  · exact (hafter _ hmem).elim

theorem Sound.value_of_success (h : Sound k home owner issued x) {c : S.Key}
    (hu : (x.world.cell c).resolver = some u)
    (hs : (x.world.scheduler home).status? u.id = some .success) :
    ∃ v, (x.world.cell c).value = .forced v := by
  obtain ⟨hmem, rfl⟩ := h.wired.serves c u hu
  exact (h.stored.agrees u hmem).filled hs

theorem Advances.resolver_eq (h : Advances k home owner issued x y) (c : S.Key) :
    (y.world.cell c).resolver = (x.world.cell c).resolver := by
  induction h with
  | refl => rfl
  | tail _ ha ih => rw [(ha.wiring_eq c).1, ih]

/-- The topmost unit works through what is left of its recipe. -/
theorem answered_recipe (henter : Enters k home owner issued n)
    (s : Recipe S (S.Val (k.target u.rule))) {x : Moment S} {f : Frame S} {rest : List (Frame S)}
    (h : Sound k home owner issued x) (hx : Working k u s x f rest)
    (hplain : (∀ rule, (k.recipe rule).Plain) → s.Plain)
    (hsteady : Smooth k home issued x.world → s.Steady fun c => ∃ v ∈ issued, k.target v.rule = c)
    (hn : issued.length ≤ x.frames.length + n) :
    Answered m home owner x (.body (s.body (k.target u.rule))) fun r y =>
      Replied k home owner issued rest x u r y ∧ ((∃ err, s = .stop err) → ∃ err, r = .error err) := by
  induction s generalizing x f rest with
  | done v =>
    obtain ⟨hf, rfl, hfills, hfollows⟩ := hx
    exact (answered_end h hf hfills hfollows).mono fun r y hr => ⟨hr, nofun⟩
  | stop err =>
    obtain ⟨hf, rfl, -, -⟩ := hx
    refine answered_stop hf fun w hw => ⟨⟨.single (.stop hf hw), h.manned.above hf rfl ?_, nofun,
      fun _ => nofun, fun hsmooth => (hsteady hsmooth).elim⟩, fun _ => ⟨err, rfl⟩⟩
    simp [Occurrence.By]
  | fail d next ih =>
    have hnext := hx.follows.trans (.fail (.refl next))
    rw [List.append_nil, Bool.or_true] at hnext
    refine answered_fail hx.frames (fun hd w hw => ?_) fun hd w hw => ?_
    · have ha : Advance k home owner issued x ⟨x.log, w, f :: rest⟩ := by
        rw [← hx.frames]
        exact .note hw
      refine (ih (h.advance ha) ⟨rfl, hx.unit, hx.fills, by rw [hd]; exact hnext⟩ hplain
        (fun hsmooth => hsteady (hsmooth.congr ha.limits_eq.symm))
        (by rw [← hx.frames]; exact hn)).mono fun r y hr => ⟨?_, nofun⟩
      exact hr.1.after (.single ha) (.of_log (List.append_nil _).symm (by simp)) fun _ _ _ _ hmem => hmem
    · have ha : Advance k home owner issued x
          ⟨x.log ++ [.reported d], w, { f with doomed := true } :: rest⟩ := .doom d hx.frames hd hw
      rw [← History.run_append_reported x.log d] at hnext
      refine (ih (h.advance ha) ⟨rfl, hx.unit, hx.fills, hnext⟩ hplain
        (fun hsmooth => hsteady (hsmooth.congr ha.limits_eq.symm))
        (by rw [hx.frames] at hn; exact hn)).mono fun r y hr => ⟨?_, nofun⟩
      exact hr.1.after (.single ha) (.of_log rfl (by simp [Occurrence.By]))
        fun _ _ _ _ hmem => by simpa using hmem
  | probe c next ih =>
    have hanswer : ∀ {y z : Moment S} {outcome : Attempt} {p : Probe (S.Val c)},
        Advances k home owner issued x y → Above x.frames y.frames x y →
        ((∀ rule, (k.recipe rule).Plain) → x.Calm y) → y.Finishes home c outcome p z →
        Advance k home owner issued y z →
        Answered m home owner z (.body ((next (.ok p)).body (k.target u.rule))) fun r z' =>
          Replied k home owner issued rest x u r z' ∧
            ((∃ err, Recipe.probe c next = .stop err) → ∃ err, r = .error err) := by
      intro y z outcome p hxy hb hc hz hyz
      obtain ⟨g, rest', hy, hb'⟩ := hx.above hb
      have hsy := h.advances hxy
      refine (ih (.ok p) (hsy.advance hyz) (hy.finish hz) (fun hp => (hplain hp).2.2 p)
        (fun hsmooth => (hsteady (hsmooth.congr (Advances.limits_eq (hxy.tail hyz)).symm)).2 p)
        (by rw [hz.frames_eq, hb.length_eq]; exact hn)).mono fun r z' hr => ⟨?_, nofun⟩
      exact hr.1.after (hxy.tail hyz) (hb'.trans (hz.above hsy.manned hy.frames))
        fun hp _ f err hmem => hc hp f err (hz.calm f err hmem)
    have hself : Above x.frames x.frames x x := .of_log (List.append_nil _).symm (by simp)
    cases hu : (x.world.cell c).resolver with
    | none =>
      refine answered_missing (h.stored.bare c hu) hu ((ih _ h (hx.error _) (fun hp => ?_)
        (fun hsmooth => ?_) hn).mono fun r y hr => ⟨hr.1, nofun⟩)
      · rw [(hplain hp).1]
        trivial
      · obtain ⟨v, hv, rfl⟩ := (hsteady hsmooth).1
        rw [h.wired.resolves v hv] at hu
        cases hu
    | some v =>
      by_cases hv : ∃ a, (x.world.cell c).value = .forced a
      · obtain ⟨a, hv⟩ := hv
        have hz : x.Finishes home c .success (.ready a)
            { x with log := x.log ++ [.read x.reader? c a] } :=
          .held nofun nofun (by rw [hv]; rfl)
        exact answered_forced hv (hanswer .refl hself (fun _ _ _ hmem => hmem) hz (.look hv))
      obtain ⟨hmem, htarget⟩ := h.wired.serves c v hu
      have hopen : (x.world.cell c).value.isForced = false := by
        cases hval : (x.world.cell c).value with
        | forced a => exact absurd ⟨a, hval⟩ hv
        | unset | soft a => rfl
      have hwant : k.Wanted issued x v := by
        intro g hg
        rw [hx.frames] at hg
        cases hg
        rw [hx.unit]
        exact .single ⟨hmem, .inl (by rw [htarget]; exact hx.follows.reads_next)⟩
      refine answered_probe k.quiet hu hopen ((henter x v h hmem hwant hn).mono fun r y hr => ?_)
      cases r with
      | error err =>
        obtain ⟨g, rest', hy, hb'⟩ := hx.above hr.above
        refine (ih (.error err) (h.advances hr.advances) (hy.error err) (fun hp => ?_)
          (fun hsmooth => ?_) (by rw [hr.above.length_eq]; exact hn)).mono
          fun r z hz => ⟨?_, nofun⟩
        · rw [(hplain hp).1]
          trivial
        · obtain ⟨o, ho⟩ := hr.smooth (hsmooth.congr (Advances.limits_eq hr.advances).symm)
          cases ho
        · -- A plain recipe ends with the error.
          refine hz.1.after hr.advances hb' fun hp hok => ?_
          obtain ⟨err', rfl⟩ := hz.2 ⟨err, (hplain hp).1 err⟩
          obtain ⟨o, ho⟩ := hok
          cases ho
      | ok outcome =>
        have hres : (y.world.cell c).resolver = some v := by
          rw [hr.advances.resolver_eq c]
          exact hu
        have hsettles := hr.settles outcome rfl
        refine ⟨?_, fun p z hz => hanswer hr.advances hr.above (fun hp => hr.calm hp ⟨outcome, rfl⟩) hz
          (.finish hres hsettles hz)⟩
        rintro rfl
        obtain ⟨a, ha⟩ := (h.advances hr.advances).value_of_success hres hsettles
        rw [ha]
        nofun

/-! ## Units -/

private theorem replied_at_once (hs : ∀ outcome, r = .ok outcome → x.Settles home u outcome)
    (hsmooth : Smooth k home issued x.world → ∃ outcome, r = .ok outcome) :
    Replied k home owner issued x.frames x u r x :=
  ⟨.refl, .of_log (List.append_nil _).symm (by simp), hs, fun _ _ _ _ hmem => hmem, hsmooth⟩

theorem Manned.length_lt (h : Manned home owner issued x) (hu : u ∈ issued)
    (hoff : Frame.indexOf? u.id x.frames = none) : x.frames.length < issued.length := by
  have hnodup : (u.id :: x.frames.map fun f => f.unit.id).Nodup := by
    refine List.nodup_cons.2 ⟨fun hmem => ?_, h.nodup⟩
    obtain ⟨f, hf, hid⟩ := List.mem_map.1 hmem
    exact Frame.indexOf?_eq_none_iff.1 hoff f hf hid
  have hsub : ∀ id ∈ u.id :: x.frames.map fun f => f.unit.id, id ∈ List.range issued.length := by
    intro id hid
    rw [List.mem_range, h.lists.size]
    rcases List.mem_cons.1 hid with rfl | hid
    · exact h.lists.lt_size hu
    · obtain ⟨f, hf, rfl⟩ := List.mem_map.1 hid
      exact (h.held f hf).lt_size
  have hle := (hnodup.subperm hsub).length_le
  rw [List.length_range, List.length_cons, List.length_map] at hle
  exact hle

theorem answered_clear (henter : ∀ j, n = j + 1 → Enters k home owner issued j)
    (h : Sound k home owner issued x) (hu : u ∈ issued) (hwant : k.Wanted issued x u)
    (hn : issued.length ≤ x.frames.length + n) (hclear : Clear (x.world.scheduler home) x.frames u) :
    Answered m home owner x (.unit u) (Replied k home owner issued x.frames x u) := by
  rcases Nat.lt_or_ge x.frames.length (x.world.scheduler home).limits.maxDepth with hroom | hdeep
  · refine answered_granted hclear hroom fun w hw => ?_
    have hlt := h.manned.length_lt hu hclear.off
    obtain ⟨j, rfl⟩ : ∃ j, n = j + 1 := ⟨n - 1, by omega⟩
    have ha : Advance k home owner issued x
        ⟨x.log ++ [.started u.id], w, { unit := u } :: x.frames⟩ := .start hu hwant hclear hroom hw
    have hx : Working k u (k.recipe u.rule) ⟨x.log ++ [.started u.id], w, { unit := u } :: x.frames⟩
        { unit := u } x.frames := by
      refine ⟨rfl, rfl, rfl, ?_⟩
      rw [History.run_append_singleton, Run.next, if_pos rfl]
      exact .refl _
    rw [k.body_eq]
    refine (answered_recipe (henter j rfl) _ (h.advance ha) hx (fun hp => hp _)
      (fun hsmooth => hsmooth.steady u hu) (by rw [List.length_cons]; omega)).mono fun r y hr => ?_
    refine hr.1.after (.single ha) (.of_log rfl fun f hf o ho hby => ?_) fun _ _ f err hmem => ?_
    · cases List.mem_singleton.1 ho
      exact Frame.indexOf?_eq_none_iff.1 hclear.off f hf hby.symm
    · simpa using hmem
  · refine answered_tooDeep hclear hdeep (replied_at_once (fun o ho => ?_) fun hsmooth => ?_)
    · cases ho
    · have hlt := h.manned.length_lt hu hclear.off
      exact absurd (Nat.le_trans hsmooth.room hdeep) (Nat.not_le_of_lt hlt)

theorem answered_again (h : Sound k home owner issued x) (hu : u ∈ issued)
    (hwant : k.Wanted issued x u) {index : Nat}
    (hon : Frame.indexOf? u.id x.frames = some index) :
    Answered m home owner x (.unit u) (Replied k home owner issued x.frames x u) := by
  obtain ⟨above, f, below, hf, hid, hl⟩ := Frame.exists_of_indexOf? hon
  have hmem : f ∈ x.frames := by rw [hf]; simp
  have hfu : f.unit = u := h.manned.lists.eq_of_id (h.manned.registered f hmem) hu hid
  obtain ⟨s, hs, -, hdoomed⟩ := (h.manned.held f hmem).status
  rw [hfu] at hs
  by_cases hfail : s = .runningWillFail
  · refine answered_failing hon (by rw [hs, hfail]) (replied_at_once (fun o ho => ?_)
      fun _ => ⟨_, rfl⟩)
    cases ho
    exact ⟨f, hmem, hfu, hdoomed.1 hfail⟩
  · have hne : (x.world.scheduler home).status? u.id ≠ some .runningWillFail := by
      rw [hs]
      exact fun heq => hfail (Option.some.inj heq)
    refine answered_cycle hon hne fun w hw => ⟨.single (.recur hu hwant hon hne hw),
      ⟨⟨_, rfl, by simp [Occurrence.By]⟩, ?_⟩, fun o ho => ?_,
      fun _ _ g err hmem => by simpa using hmem, fun _ => ⟨_, rfl⟩⟩
    · exact Frame.cores_joinCycleAbove index x.frames
    · cases ho
      rw [Moment.Settles, Moment.Touched, hf, Frame.joinCycleAbove_append above f hl]
      cases above with
      | nil =>
        refine ⟨f, below, rfl, .inr ?_⟩
        exact (History.reentered_run_append (by simp)).2 (.inr (by simp [hid]))
      | cons g above =>
        obtain ⟨head, -, hhead⟩ := g.head_joinCycle index
        exact ⟨g.joinCycle index, above.map (Frame.joinCycle index) ++ f :: below, rfl,
          .inl (by rw [hhead]; nofun)⟩

theorem answered_of_new (h : Sound k home owner issued x) (hu : u ∈ issued)
    (hwant : k.Wanted issued x u)
    (hnew : Frame.indexOf? u.id x.frames = none →
      (x.world.scheduler home).status? u.id = some .new →
      Answered m home owner x (.unit u) (Replied k home owner issued x.frames x u)) :
    Answered m home owner x (.unit u) (Replied k home owner issued x.frames x u) := by
  cases hon : Frame.indexOf? u.id x.frames with
  | some index => exact answered_again h hu hwant hon
  | none =>
    obtain ⟨s, hs⟩ := Scheduler.exists_status?_of_lt _ (h.manned.lists.lt_size hu)
    have hoff : s.isRunning = true → False := fun hrun => by
      obtain ⟨f, hf, hid⟩ := h.manned.running u.id s hs hrun
      exact Frame.indexOf?_eq_none_iff.1 hon f hf hid
    cases s with
    | new => exact hnew hon hs
    | success =>
      refine answered_ended (.inl ⟨rfl, rfl⟩) hon hs (replied_at_once (fun o ho => ?_)
        fun _ => ⟨_, rfl⟩)
      cases ho
      exact hs
    | fail =>
      refine answered_ended (.inr ⟨rfl, rfl⟩) hon hs (replied_at_once (fun o ho => ?_)
        fun _ => ⟨_, rfl⟩)
      cases ho
      exact hs
    | running | runningRecursive | runningWillFail => exact (hoff rfl).elim

/-! ## Barriers -/

def World.unfinished (w : World S) (home : SchedulerId) (issued : List (WorkUnit S.Rule)) : Nat :=
  issued.countP fun u => !((w.scheduler home).status? u.id).any Status.isTerminal

theorem Sound.unfinished_lt (h : Sound k home owner issued x)
    (ha : Advances k home owner issued x y) (hu : u ∈ issued)
    (hnew : (x.world.scheduler home).status? u.id = some .new) {s : Status}
    (hs : (y.world.scheduler home).status? u.id = some s) (ht : s.isTerminal = true) :
    y.world.unfinished home issued < x.world.unfinished home issued := by
  have hmono : ∀ units : List (WorkUnit S.Rule),
      y.world.unfinished home units ≤ x.world.unfinished home units := by
    refine fun units => List.countP_mono_left fun v _ hv => ?_
    cases hv' : (x.world.scheduler home).status? v.id with
    | none => rfl
    | some t =>
      cases hterminal : t.isTerminal with
      | false => simp [hterminal]
      | true =>
        rw [h.status_of_terminal ha hv' hterminal] at hv
        simp [hterminal] at hv
  obtain ⟨before, after, rfl⟩ := List.append_of_mem hu
  have hbefore := hmono before
  have hafter := hmono after
  simp only [World.unfinished, List.countP_append, List.countP_cons, hnew, hs, Option.any_some, ht]
    at hbefore hafter ⊢
  simp only [Status.isTerminal, Bool.not_true, Bool.not_false, Bool.false_eq_true, if_true, if_false]
  omega

/-- A pending unit of an earlier phase that is not on the stack is new. -/
private theorem Sound.earlier (h : Sound k home owner issued x) {phase : Phase}
    {b : Phase × WorkUnit S.Rule} (hb : b ∈ (x.world.scheduler home).earlierUnits phase)
    (hoff : Frame.indexOf? b.2.id x.frames = none) :
    b.2 ∈ issued ∧ b.2.phase = some b.1 ∧ b.1 < phase ∧
      (x.world.scheduler home).status? b.2.id = some .new := by
  obtain ⟨hpending, hlt⟩ := (x.world.scheduler home).mem_earlierUnits.1 hb
  obtain ⟨hmem, hphase, s, hs, ht⟩ := (h.manned.lists.pending b.1 b.2).1 hpending
  refine ⟨hmem, hphase, hlt, ?_⟩
  cases s with
  | new => exact hs
  | success | fail => cases ht
  | running | runningRecursive | runningWillFail =>
    obtain ⟨f, hf, hid⟩ := h.manned.running _ _ hs rfl
    exact absurd hid (Frame.indexOf?_eq_none_iff.1 hoff f hf)

/-- Past a barrier. The induction is on the number of units that have not ended:
a unit that is helped ends, or the barrier is not passed. -/
theorem answered_barrier (henter : ∀ j, n = j + 1 → Enters k home owner issued j) {p : Phase}
    (hlower : ∀ (x : Moment S) (v : WorkUnit S.Rule) (q : Phase), Sound k home owner issued x →
      v ∈ issued → k.Wanted issued x v → issued.length ≤ x.frames.length + n →
      v.phase = some q → q < p →
      Answered m home owner x (.unit v) (Replied k home owner issued x.frames x v))
    (hphase : u.phase = some p) (h : Sound k home owner issued x) (hu : u ∈ issued)
    (hwant : k.Wanted issued x u) (hn : issued.length ≤ x.frames.length + n) :
    Answered m home owner x (.past u p) (Replied k home owner issued x.frames x u) := by
  have hnever : ∀ {w : World S} {P : Prop}, Smooth k home issued w → P := fun hsmooth => by
    have hnone := hsmooth.unphased u hu
    rw [hphase] at hnone
    cases hnone
  generalize hcount : x.world.unfinished home issued = count
  induction count using Nat.strongRecOn generalizing x with
  | _ count ih =>
    by_cases hnone : (x.world.scheduler home).earlierUnits p = []
    · refine answered_past hnone (answered_of_new h hu hwant fun hoff hnew => ?_)
      refine answered_clear henter h hu hwant hn ⟨hoff, hnew, ?_⟩
      rw [hphase, Option.filter_some]
      exact if_neg (Bool.eq_false_iff.1
        ((x.world.scheduler home).hasEarlier_eq_false h.manned.lists.tidy hnone))
    by_cases hon : ∃ b ∈ (x.world.scheduler home).earlierUnits p,
        Frame.indexOf? b.2.id x.frames ≠ none
    · obtain ⟨b, hb, hon⟩ := hon
      exact answered_outOfOrder hb hon fun err => replied_at_once nofun hnever
    have hoff : ∀ b ∈ (x.world.scheduler home).earlierUnits p,
        Frame.indexOf? b.2.id x.frames = none :=
      fun b hb => Classical.not_not.1 fun hne => hon ⟨b, hb, hne⟩
    refine answered_help hnone hoff (fun b hb => (h.earlier hb (hoff b hb)).2.2.2)
      fun b hb w hw => ?_
    obtain ⟨hmem, hbphase, hlt, hnew⟩ := h.earlier hb (hoff b hb)
    have ha : Advance k home owner issued x ⟨x.log, w, x.frames⟩ := .note hw
    have hwant' : k.Wanted issued ⟨x.log, w, x.frames⟩ b.2 := fun f hf =>
      (hwant f hf).tail ⟨hmem, .inr ⟨b.1, p, hbphase, hphase, hlt⟩⟩
    refine (hlower ⟨x.log, w, x.frames⟩ b.2 b.1 (h.advance ha) hmem hwant' hn hbphase
      hlt).mono fun r y hr => ?_
    have hr := hr.after (.single ha) (.of_log (List.append_nil _).symm (by simp))
      fun _ _ _ _ hmem => hmem
    -- A unit that has ended does so for good, and the barrier is looked at again.
    have hagain : ∀ {s : Status}, (∃ o, r = .ok o) →
        (y.world.scheduler home).status? b.2.id = some s → s.isTerminal = true →
        Answered m home owner y (.past u p) (Replied k home owner issued x.frames x u) := by
      intro s hok hs ht
      have hless := h.unfinished_lt hr.advances hmem hnew hs ht
      refine (ih _ (by rw [← hcount]; exact hless) (h.advances hr.advances)
        (hwant.above hr.above) (by rw [hr.above.length_eq]; exact hn) rfl).mono fun r' z hz => ?_
      exact hz.after hr.advances hr.above fun hp _ => hr.calm hp hok
    cases r with
    | error err => exact ⟨hr.advances, hr.above, nofun, fun _ => nofun, hnever⟩
    | ok outcome =>
      cases outcome with
      | success => exact hagain ⟨_, rfl⟩ (hr.settles _ rfl) rfl
      | fail => exact hagain ⟨_, rfl⟩ (hr.settles _ rfl) rfl
      | provisional | cycle | failing =>
        exact fun err => ⟨hr.advances, hr.above, nofun, fun _ => nofun, hnever⟩

theorem answered_below (henter : ∀ j, n = j + 1 → Enters k home owner issued j) (p : Phase)
    (h : Sound k home owner issued x) (hu : u ∈ issued) (hwant : k.Wanted issued x u)
    (hn : issued.length ≤ x.frames.length + n) (hp : ∀ q, u.phase = some q → q < p) :
    Answered m home owner x (.unit u) (Replied k home owner issued x.frames x u) := by
  induction p generalizing x u with
  | zero =>
    refine answered_of_new h hu hwant fun hoff hnew => ?_
    refine answered_clear henter h hu hwant hn ⟨hoff, hnew, ?_⟩
    cases hphase : u.phase with
    | none => rfl
    | some q => exact absurd (hp q hphase) (Nat.not_lt_zero q)
  | succ p ih =>
    refine answered_of_new h hu hwant fun hoff hnew => ?_
    cases hfilter : u.phase.filter (x.world.scheduler home).hasEarlier with
    | none => exact answered_clear henter h hu hwant hn ⟨hoff, hnew, hfilter⟩
    | some q =>
      obtain ⟨hphase, -⟩ := Option.filter_eq_some_iff.1 hfilter
      refine answered_behind hoff hnew hfilter (answered_barrier henter ?_ hphase h hu hwant hn)
      intro y v q' hy hv hwant' hn' hq' hlt
      refine ih hy hv hwant' hn' fun q'' hq'' => ?_
      cases hq'.symm.trans hq''
      exact Nat.lt_of_lt_of_le hlt (Nat.le_of_lt_succ (hp q hphase))

/-- **Every request for a unit is answered.** -/
theorem enters (k : Rulebook m) (home : SchedulerId) (owner : EvaluatorId)
    (issued : List (WorkUnit S.Rule)) (n : Nat) : Enters k home owner issued n := by
  have hall : ∀ j, (∀ i, j = i + 1 → Enters k home owner issued i) →
      Enters k home owner issued j := by
    intro j henter x u h hu hwant hn
    cases hphase : u.phase with
    | none => exact answered_below henter 0 h hu hwant hn (by rw [hphase]; nofun)
    | some q =>
      refine answered_below henter (q + 1) h hu hwant hn fun q' hq' => ?_
      cases hphase.symm.trans hq'
      exact Nat.lt_succ_self _
  induction n with
  | zero => exact hall 0 fun i hi => by cases hi
  | succ n ih =>
    refine hall (n + 1) fun i hi => ?_
    cases hi
    exact ih

/-! ## Callers -/

/-- What the read of a cell by a caller comes to. A value that is given is the
final value of the cell, and a cell that has one gives it at once. -/
structure Told (k : Rulebook m) (home : SchedulerId) (owner : EvaluatorId)
    (issued : List (WorkUnit S.Rule)) (x : Moment S) (c : S.Key)
    (r : Except Error (Probe (S.Val c))) (y : Moment S) : Prop where
  advances : Advances k home owner issued x y
  frames : y.frames = []
  value : ∀ p, r = .ok p → (y.world.cell c).value = .forced p.value
  held : ∀ v, (x.world.cell c).value = .forced v →
    r = .ok (.ready v) ∧ y = ⟨x.log ++ [.read none c v], x.world, []⟩
  calm : (∀ rule, (k.recipe rule).Plain) → (∃ p, r = .ok p) → x.Calm y
  smooth : Smooth k home issued x.world → (∃ v ∈ issued, k.target v.rule = c) → ∃ p, r = .ok p

private theorem Moment.Finishes.value_eq (h : Sound k home owner issued x) (hx : x.frames = [])
    {c : S.Key} (hu : (x.world.cell c).resolver = some u) {outcome : Attempt}
    (hs : x.Settles home u outcome) {p : Probe (S.Val c)} (hy : x.Finishes home c outcome p y) :
    (y.world.cell c).value = .forced p.value := by
  have hempty : ¬x.Touched := by
    rintro ⟨f, rest, hf, -⟩
    rw [hx] at hf
    cases hf
  cases hy with
  | held ho hfail hval =>
    cases outcome with
    | success =>
      obtain ⟨v, hv⟩ := h.value_of_success hu hs
      rw [hv] at hval ⊢
      cases hval
      rfl
    | fail => exact hfail rfl
    | failing => exact absurd rfl ho
    | provisional | cycle => exact absurd hs hempty
  | failing hp =>
    obtain ⟨f, hf, -⟩ := hs
    rw [hx] at hf
    cases hf
  | fellBack ho hval hp hw =>
    rcases ho with rfl | rfl
    all_goals exact absurd hs hempty
  | lost hval hp hw => rw [hw.cell, World.cell_setValue_self, hp]

/-- **Every read by a caller comes to an end.** -/
theorem comes_read {c : S.Key} {e : Evaluator S (Except Error (Probe (S.Val c)))}
    (h : Sound k home e.id issued x) (hx : x.frames = []) (he : e.Idle home)
    (hfocus : e.focus = .act (.top (Action.probe c))) :
    Comes m (Moment.Returned e (Told k home e.id issued x c)) x.log x.world e := by
  refine comes_get k.quiet rfl he hfocus hx (fun hu => ⟨h.stored.bare c hu, ?_⟩) (fun v hv => ?_)
    fun u hu hopen => ?_
  · refine ⟨.refl, hx, nofun, fun v hv => ?_, fun _ => nofun, fun _ ⟨v, hv, hc⟩ => ?_⟩
    · rw [h.stored.bare c hu] at hv
      cases hv
    · rw [← hc, h.wired.resolves v hv] at hu
      cases hu
  · have ha : Advance k home e.id issued x ⟨x.log ++ [.read x.reader? c v], x.world, x.frames⟩ :=
      .look hv
    rw [Moment.reader?, hx] at ha
    refine ⟨.single (by rw [hx]; exact ha), hx, fun p hp => ?_, fun v' hv' => ?_,
      fun _ _ f err hmem => by simpa using hmem, fun _ _ => ⟨_, rfl⟩⟩
    · cases hp
      exact hv
    · cases hv.symm.trans hv'
      exact ⟨rfl, by rw [hx]⟩
  · have hnot : ∀ v, (x.world.cell c).value = .forced v → False := fun v hv => by
      rw [hv] at hopen
      cases hopen
    have hwant : k.Wanted issued x u := fun f hf => by
      rw [hx] at hf
      cases hf
    refine (enters k home e.id issued issued.length x u h (h.wired.serves c u hu).1 hwant
      (Nat.le_add_left _ _)).mono fun r y hr => ?_
    have hy : y.frames = [] := List.length_eq_zero_iff.1 (by rw [hr.above.length_eq, hx]; rfl)
    cases r with
    | error err =>
      refine ⟨hr.advances, hy, nofun, fun v hv => (hnot v hv).elim, fun _ => nofun,
        fun hsmooth _ => ?_⟩
      obtain ⟨o, ho⟩ := hr.smooth hsmooth
      cases ho
    | ok outcome =>
      have hsy := h.advances hr.advances
      have hres : (y.world.cell c).resolver = some u := by
        rw [hr.advances.resolver_eq c]
        exact hu
      have hsettles := hr.settles outcome rfl
      refine ⟨?_, fun p z hz => ⟨hr.advances.tail (.finish hres hsettles hz),
        hz.frames_eq.trans hy, fun q hq => ?_, fun v hv => (hnot v hv).elim, fun hp _ f err hmem =>
          hr.calm hp ⟨outcome, rfl⟩ f err (hz.calm f err hmem), fun _ _ => ⟨p, rfl⟩⟩⟩
      · rintro rfl
        obtain ⟨v, hv⟩ := hsy.value_of_success hres hsettles
        rw [hv]
        nofun
      · cases hq
        exact hz.value_eq hsy hy hres hsettles

end Attribution.Engine
