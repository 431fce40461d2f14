import Attribution.Proofs.Recipe.Forcing
/-!
# What final values rest on

A unit that is part of no cycle reads nothing but values that stay: final ones,
and the sentinel of a unit that has failed or is bound to fail. So when it ends,
its value is backed by what its cells will give to everybody else.

* `Final` is a value that stays, which an advance preserves (`Final.advance`);
* `Closed` is what is known of a unit that has ended;
* `Grounded` says that units are backed unless a cycle touches them, and that
  units which have ended are closed (`Grounded.advance`, `Course.grounded`).
-/

namespace Attribution.Engine

variable {S : Schema} {m : Model S} {k : Rulebook m} {home : SchedulerId} {owner : EvaluatorId}
  {issued : List (WorkUnit S.Rule)} {log log' : History S} {w w' : World S} {x y : Moment S}
  {c : S.Key}

/-! ## Values that stay -/

/-- The value is final, or it is the sentinel that a failure will leave. -/
def Final (home : SchedulerId) (x : Moment S) (c : S.Key) (v : S.Val c) : Prop :=
  (x.world.cell c).value = .forced v ∨ v = S.sentinel c ∧
    ∃ u, (x.world.cell c).resolver = some u ∧
      ((x.world.scheduler home).status? u.id = some .fail ∨
        ∃ f ∈ x.frames, f.unit = u ∧ f.doomed = true)

theorem Fares.forced {s s' : Option Status} {v v' : CellValue (S.Val c)}
    (h : Fares S c s v s' v') (hs : Agrees c s v) {a : S.Val c} (hv : v = .forced a) :
    v' = .forced a := by
  cases h with
  | keep | run | stop => exact hv
  | fallBack => cases hv
  | giveUp hopen =>
    rw [hv] at hopen
    cases hopen
  | succeed _ _ ht | defer _ _ ht | lose _ ht => exact absurd hv (hs.not_forced ht a)

theorem Sound.forced_of_advance (h : Sound k home owner issued x)
    (ha : Advance k home owner issued x y) {v : S.Val c} (hv : (x.world.cell c).value = .forced v) :
    (y.world.cell c).value = .forced v := by
  cases hu : (x.world.cell c).resolver with
  | none => rw [ha.value_eq_of_bare h.manned h.wired hu, hv]
  | some u =>
    obtain ⟨hmem, rfl⟩ := h.wired.serves c u hu
    exact (ha.fares h.manned h.wired hmem).forced (h.stored.agrees u hmem) hv

theorem Frame.mem_joinCycleAbove {index : Nat} {frames : List (Frame S)} {g : Frame S} :
    g ∈ joinCycleAbove index frames → g.head = none → g ∈ frames := by
  induction frames with
  | nil => exact fun hg _ => hg
  | cons f rest ih =>
    intro hg hh
    rw [joinCycleAbove] at hg
    split at hg
    · rcases List.mem_cons.1 hg with rfl | hg
      · obtain ⟨head, -, hhead⟩ := f.head_joinCycle index
        rw [hh] at hhead
        cases hhead
      · exact List.mem_cons_of_mem _ (ih hg hh)
    · exact hg

/-- A unit that is bound to fail stays on the stack until it fails. -/
theorem Advance.doomed (ha : Advance k home owner issued x y) (hm : Manned home owner issued x)
    {f : Frame S} (hf : f ∈ x.frames) (hd : f.doomed = true) :
    (y.world.scheduler home).status? f.unit.id = some .fail ∨
      ∃ g ∈ y.frames, g.unit = f.unit ∧ g.doomed = true := by
  have hfail : ∀ {g : Frame S} {rest : List (Frame S)} {v w : World S}, x.frames = g :: rest →
      (v.modifyScheduler home fun s => s.settle g.unit .fail).Akin home w →
      v.schedulers = x.world.schedulers →
      (w.scheduler home).status? f.unit.id = some .fail ∨
        ∃ g ∈ rest, g.unit = f.unit ∧ g.doomed = true := by
    intro g rest v w hx hw hv
    rw [hx] at hf
    rcases List.mem_cons.1 hf with rfl | hf
    · refine .inl ((hm.status?_modify hw hv (Scheduler.status?_settle _ (hm.held f ?_).lt_size .fail)
        f.unit.id).trans (if_pos rfl))
      rw [hx]
      exact List.mem_cons_self
    · exact .inr ⟨f, hf, rfl, hd⟩
  have hrest : ∀ {g : Frame S} {rest : List (Frame S)}, x.frames = g :: rest → g.doomed = false →
      ∃ g ∈ rest, g.unit = f.unit ∧ g.doomed = true := by
    intro g rest hx hg
    rw [hx] at hf
    rcases List.mem_cons.1 hf with rfl | hf
    · rw [hd] at hg
      cases hg
    · exact ⟨f, hf, rfl, hd⟩
  cases ha with
  | note | look => exact .inr ⟨f, hf, rfl, hd⟩
  | start => exact .inr ⟨f, List.mem_cons_of_mem _ hf, rfl, hd⟩
  | @recur u index w hu hwant hon hs hw =>
    have hmem : f.core ∈ (Frame.joinCycleAbove index x.frames).map Frame.core := by
      rw [Frame.cores_joinCycleAbove]
      exact List.mem_map_of_mem hf
    obtain ⟨g, hg, hcore⟩ := List.mem_map.1 hmem
    exact .inr ⟨g, hg, show g.core.unit = f.core.unit by rw [hcore],
      (show g.core.doomed = f.core.doomed by rw [hcore]).trans hd⟩
  | finish hu hs hy => exact .inr ⟨f, by rw [hy.frames_eq]; exact hf, rfl, hd⟩
  | doom d hx hg hw =>
    obtain ⟨g, hmem, hg⟩ := hrest hx hg
    exact .inr ⟨g, List.mem_cons_of_mem _ hmem, hg⟩
  | stop hx hw => exact hfail hx hw rfl
  | succeed hx hg hh hfollows hw => exact .inr (hrest hx hg)
  | defer hx hg hh hw => exact .inr (hrest hx hg)
  | lose hx hg hfollows hw => exact hfail hx hw rfl

theorem Final.advance {v : S.Val c} (h : Final home x c v) (hx : Sound k home owner issued x)
    (ha : Advance k home owner issued x y) : Final home y c v := by
  rcases h with hv | ⟨hv, u, hu, hfail⟩
  · exact .inl (hx.forced_of_advance ha hv)
  · refine .inr ⟨hv, u, (ha.wiring_eq c).1.trans hu, ?_⟩
    rcases hfail with hfail | ⟨f, hf, rfl, hd⟩
    · exact .inl (hx.status_of_terminal (.single ha) hfail rfl)
    · exact ha.doomed hx.manned hf hd

/-- What is read by a unit that no cycle touches stays. -/
theorem Moment.Finishes.final {u : WorkUnit S.Rule} {outcome : Attempt} {p : Probe (S.Val c)}
    (h : x.Finishes home c outcome p y) (hx : Sound k home owner issued x)
    (hu : (x.world.cell c).resolver = some u) (hs : x.Settles home u outcome)
    (hclean : ¬x.Touched) : Final home y c p.value := by
  cases h with
  | held ho hf hval =>
    cases outcome with
    | success =>
      obtain ⟨a, ha⟩ := hx.value_of_success hu hs
      rw [ha] at hval
      cases hval
      exact .inl ha
    | fail => exact .inl (hf rfl)
    | provisional | cycle => exact absurd hs hclean
    | failing => exact absurd rfl ho
  | failing hp => exact .inr ⟨hp, u, hu, .inr hs⟩
  | fellBack ho hval hp hw =>
    rcases ho with rfl | rfl
    all_goals exact absurd hs hclean
  | lost hval hp hw =>
    refine .inl ?_
    rw [hw.cell, World.cell_setValue_self, hp]

/-! ## Units -/

/-- Everything that the unit has read in its last run stays. -/
def Backed (home : SchedulerId) (x : Moment S) (id : UnitId) : Prop :=
  ∀ r ∈ (x.log.run id).reads, Final home x r.1 r.2

theorem Backed.advance {id : UnitId} (h : Backed home x id) (hx : Sound k home owner issued x)
    (ha : Advance k home owner issued x y)
    (hreads : (y.log.run id).reads = (x.log.run id).reads) : Backed home y id := by
  intro r hr
  rw [hreads] at hr
  exact (h r hr).advance hx ha

structure Closed (k : Rulebook m) (home : SchedulerId) (x : Moment S) (u : WorkUnit S.Rule)
    (f : Frame S) (result : Except Error Unit) : Prop where
  ended : (x.log.run u.id).ended = some (f, result)
  status : (x.world.scheduler home).status? u.id = some (f.outcome result).1
  backed : f.head = none → (x.log.run u.id).reentered = false → Backed home x u.id
  follows : result = .ok () → ∃ v,
    (k.recipe u.rule).Follows (x.log.run u.id).reads f.doomed (.done v) ∧
    (f.doomed = false → (x.world.cell (k.target u.rule)).value = .forced v)

/-- Units that no cycle touches are backed, and units that have ended are closed. -/
structure Grounded (k : Rulebook m) (home : SchedulerId) (issued : List (WorkUnit S.Rule))
    (x : Moment S) : Prop where
  frames : ∀ f ∈ x.frames, f.head = none → (x.log.run f.unit.id).reentered = false →
    Backed home x f.unit.id
  ended : ∀ u ∈ issued, ∀ s, (x.world.scheduler home).status? u.id = some s →
    s.isTerminal = true → ∃ f result, Closed k home x u f result

theorem Advance.run_eq (ha : Advance k home owner issued x y) {id : UnitId}
    (hoff : ∀ f ∈ x.frames, f.unit.id ≠ id)
    (hnew : (x.world.scheduler home).status? id ≠ some .new) : y.log.run id = x.log.run id := by
  have htop : ∀ {f : Frame S} {rest : List (Frame S)}, x.frames = f :: rest → f.unit.id ≠ id :=
    fun hf => hoff _ (by rw [hf]; exact List.mem_cons_self)
  have hreader : x.reader? ≠ some id := by
    intro hr
    obtain ⟨f, hf, hid⟩ := Option.map_eq_some_iff.1 hr
    exact hoff f (List.mem_of_mem_head? hf) hid
  have hended : ∀ {cells : History S} {f g : Frame S} {rest : List (Frame S)}
      {result : Except Error Unit}, x.frames = f :: rest → g.unit = f.unit →
      (∀ o ∈ cells, o.OfCell) →
      (x.log ++ cells ++ [Occurrence.ended g result]).run id = x.log.run id := by
    intro cells f g rest result hf hg hcells
    rw [History.run_append_singleton, History.run_append_of_cells hcells]
    refine Run.next_eq_self _ (fun hid => htop hf ?_) nofun
    rw [← hg]
    exact hid
  cases ha with
  | note => rfl
  | doom d => exact History.run_append_reported x.log d id
  | start hu hwant hc hd hw =>
    rw [History.run_append_singleton]
    refine Run.next_eq_self _ (fun hid => hnew ?_) nofun
    rw [← show _ = id from hid]
    exact hc.new
  | @recur u index w hu hwant hon hs hw =>
    obtain ⟨above, f, below, hf, hid, -⟩ := Frame.exists_of_indexOf? hon
    rw [History.run_append_singleton]
    refine Run.next_eq_self _ (fun hby => hby) fun heq => hoff f (by rw [hf]; simp) ?_
    rw [hid]
    exact Occurrence.reentered.inj heq
  | look hv =>
    rw [History.run_append_singleton]
    exact Run.next_eq_self _ hreader nofun
  | finish hu hs hy =>
    obtain ⟨before, after, hlog, hb, ha⟩ := hy.log_eq
    rw [hlog, History.run_append_read hb ha]
    exact Run.next_eq_self _ hreader nofun
  | stop hf hw =>
    rw [History.run_append_singleton]
    exact Run.next_eq_self _ (htop hf) nofun
  | succeed hf hd hh hfollows hw =>
    exact hended hf rfl fun o ho => World.ofCell_of_mem_announcing ho
  | defer hf hd hh hw =>
    refine hended hf rfl fun o ho => ?_
    cases List.mem_singleton.1 ho
    trivial
  | lose hf hd hfollows hw =>
    rw [List.append_assoc x.log]
    refine hended hf rfl fun o ho => ?_
    rcases List.mem_append.1 ho with ho | ho
    · cases List.mem_singleton.1 ho
      trivial
    · exact World.ofCell_of_mem_announcing ho

theorem Closed.advance {u : WorkUnit S.Rule} {f : Frame S} {result : Except Error Unit}
    (h : Closed k home x u f result) (hterminal : (f.outcome result).1.isTerminal = true)
    (hx : Sound k home owner issued x) (ha : Advance k home owner issued x y) :
    Closed k home y u f result := by
  have hrun : y.log.run u.id = x.log.run u.id := by
    refine ha.run_eq (fun g hg hid => ?_) fun hnew => ?_
    · obtain ⟨s, hs, ht⟩ := hx.manned.top_status hg
      rw [hid, h.status] at hs
      rw [Option.some.inj hs, ht] at hterminal
      cases hterminal
    · rw [h.status] at hnew
      rw [Option.some.inj hnew] at hterminal
      cases hterminal
  refine ⟨hrun ▸ h.ended, hx.status_of_terminal (.single ha) h.status hterminal,
    fun hh hre => ?_, fun hr => ?_⟩
  · rw [hrun] at hre
    exact (h.backed hh hre).advance hx ha (by rw [hrun])
  · obtain ⟨v, hfollows, hv⟩ := h.follows hr
    refine ⟨v, by rw [hrun]; exact hfollows, fun hd => hx.forced_of_advance ha (hv hd)⟩

private theorem Grounded.closed (h : Grounded k home issued x) (hx : Sound k home owner issued x)
    (ha : Advance k home owner issued x y) {f g : Frame S} {rest : List (Frame S)}
    {result : Except Error Unit} (hf : x.frames = f :: rest) (cells : History S)
    (hcells : ∀ o ∈ cells, o.OfCell) (hlog : y.log = x.log ++ cells ++ [.ended g result])
    (hunit : g.unit = f.unit) (hhead : g.head = f.head)
    (hstatus : (y.world.scheduler home).status? f.unit.id = some (g.outcome result).1)
    (hfollows : result = .ok () → ∃ v,
      (k.recipe f.unit.rule).Follows (x.log.run f.unit.id).reads g.doomed (.done v) ∧
      (g.doomed = false → (y.world.cell (k.target f.unit.rule)).value = .forced v)) :
    Closed k home y f.unit g result := by
  have hrun : y.log.run f.unit.id =
      { x.log.run f.unit.id with ended := some (g, result) } := by
    rw [hlog, History.run_append_singleton, History.run_append_of_cells hcells, Run.next,
      if_pos (by rw [hunit])]
  refine ⟨by rw [hrun], hstatus, fun hh hre => ?_, fun hr => by rw [hrun]; exact hfollows hr⟩
  rw [hrun] at hre
  have hmem : f ∈ x.frames := by rw [hf]; exact List.mem_cons_self
  exact (h.frames f hmem (hhead ▸ hh) hre).advance hx ha (by rw [hrun])

theorem Grounded.closed_of_advance (h : Grounded k home issued x)
    (hx : Sound k home owner issued x) (ha : Advance k home owner issued x y)
    {u : WorkUnit S.Rule} (hu : u ∈ issued) {s : Status}
    (hs : (y.world.scheduler home).status? u.id = some s) (ht : s.isTerminal = true)
    (hopen : ∀ s, (x.world.scheduler home).status? u.id = some s → s.isTerminal = false) :
    ∃ f result, Closed k home y u f result := by
  have hclash : ∀ {t : Option Status}, t = some s →
      (∀ s, t = some s → s.isTerminal = false) → False := by
    intro t hts hopen
    rw [hopen s hts] at ht
    cases ht
  have hchanged : ∀ {v w : World S} {f : Scheduler S.Rule → Scheduler S.Rule} {id : UnitId}
      {status : Status}, (w.scheduler home).status? u.id = some s →
      (v.modifyScheduler home f).Akin home w → v.schedulers = x.world.schedulers →
      (∀ j, (f (x.world.scheduler home)).status? j =
        if j = id then some status else (x.world.scheduler home).status? j) →
      status.isTerminal = false → False := by
    intro v w f id status hs hw hv hf hstatus
    rw [hx.manned.status?_modify hw hv hf] at hs
    split at hs
    · exact hclash hs fun s hs => by rw [← Option.some.inj hs]; exact hstatus
    · exact hclash hs hopen
  -- A unit that is settled is the topmost one.
  have hsettled : ∀ {v w : World S} {f : Frame S} {status : Status}, f ∈ x.frames →
      (w.scheduler home).status? u.id = some s →
      (v.modifyScheduler home fun s => s.settle f.unit status).Akin home w →
      v.schedulers = x.world.schedulers →
      u = f.unit ∧ (w.scheduler home).status? f.unit.id = some status := by
    intro v w f status hf hs hw hv
    have hmod := hx.manned.status?_modify hw hv
      (Scheduler.status?_settle _ (hx.manned.held f hf).lt_size status)
    rw [hmod] at hs
    split at hs
    · rename_i hid
      exact ⟨hx.manned.lists.eq_of_id hu (hx.manned.registered f hf) hid,
        (hmod f.unit.id).trans (if_pos rfl)⟩
    · exact (hclash hs hopen).elim
  have htop : ∀ {f : Frame S} {rest : List (Frame S)}, x.frames = f :: rest → f ∈ x.frames :=
    fun hf => by rw [hf]; exact List.mem_cons_self
  have hadvance := ha
  cases ha with
  | note hw =>
    rw [hw.status?] at hs
    exact (hclash hs hopen).elim
  | start hv hwant hc hd hw =>
    exact (hchanged hs hw rfl
      (Scheduler.status?_claim _ (Scheduler.lt_size_of_status? _ hc.new) owner) rfl).elim
  | @recur v index w hv hwant hon hne hw =>
    obtain ⟨above, f, below, hf, hid, -⟩ := Frame.exists_of_indexOf? hon
    have hmem : f ∈ x.frames := by rw [hf]; simp
    exact (hchanged hs hw rfl (Scheduler.status?_setStatus _
      (hid ▸ (hx.manned.held f hmem).lt_size) .runningRecursive) rfl).elim
  | look hv => exact (hclash hs hopen).elim
  | finish hv hset hy =>
    rw [Scheduler.status?_eq_of_table hy.table_eq.1] at hs
    exact (hclash hs hopen).elim
  | doom d hf hd hw =>
    exact (hchanged hs hw rfl (Scheduler.status?_setStatus _ (hx.manned.held _ (htop hf)).lt_size
      .runningWillFail) rfl).elim
  | @stop f rest err w hf hw =>
    obtain ⟨rfl, hstatus⟩ := hsettled (htop hf) hs hw rfl
    exact ⟨f, .error err, h.closed hx hadvance hf [] (List.forall_mem_nil _)
      (by rw [List.append_nil]) rfl rfl hstatus nofun⟩
  | @succeed f rest v w hf hd hh hfollows hw =>
    obtain ⟨rfl, hstatus⟩ := hsettled (htop hf) hs hw rfl
    refine ⟨_, .ok (), h.closed hx hadvance hf (x.world.announcing _ v)
      (fun o ho => World.ofCell_of_mem_announcing ho) rfl rfl rfl ?_ fun _ => ⟨v, ?_, fun _ => ?_⟩⟩
    · rw [hstatus]
      simp [Frame.outcome, hd, hh]
    · exact hd ▸ hfollows
    · rw [hw.cell, World.cell_modifyScheduler, World.cell_setValue_self]
  | @defer f rest v w hf hd hh hw =>
    exact (hchanged hs hw rfl (Scheduler.status?_settle _ (hx.manned.held f (htop hf)).lt_size .new)
      rfl).elim
  | @lose f rest v w hf hd hfollows hw =>
    obtain ⟨rfl, hstatus⟩ := hsettled (htop hf) hs hw rfl
    refine ⟨_, .ok (), h.closed hx hadvance hf
      (.wrote _ (.soft v) :: x.world.announcing _ (S.sentinel _)) (fun o ho => ?_)
      (congrArg (· ++ _) (List.append_assoc x.log _ _)) rfl rfl ?_ fun _ => ⟨v, ?_, fun hno => ?_⟩⟩
    · rcases List.mem_cons.1 ho with rfl | ho
      · trivial
      · exact World.ofCell_of_mem_announcing ho
    · rw [hstatus]
      simp [Frame.outcome, hd]
    · exact hd ▸ hfollows
    · cases hd.symm.trans hno

/-- A unit that does nothing stays backed, unless a cycle touches it now. -/
private theorem Grounded.backed_of_idle (h : Grounded k home issued x)
    (hx : Sound k home owner issued x) (ha : Advance k home owner issued x y) {new : History S}
    (hlog : y.log = x.log ++ new) {f : Frame S} (hf : f ∈ x.frames) (hh : f.head = none)
    (hnew : ∀ o ∈ new, ¬o.By f.unit.id) (hre : (y.log.run f.unit.id).reentered = false) :
    Backed home y f.unit.id := by
  have hrun := History.run_append x.log hnew
  rw [← hlog] at hrun
  obtain ⟨hreads, -, hiff⟩ := hrun
  refine (h.frames f hf hh ?_).advance hx ha hreads
  cases hre' : (x.log.run f.unit.id).reentered with
  | false => rfl
  | true =>
    rw [hiff.2 (.inl hre')] at hre
    cases hre

private theorem Grounded.backed_of_read (h : Grounded k home issued x)
    (hx : Sound k home owner issued x) (ha : Advance k home owner issued x y)
    {before after : History S} {v : S.Val c}
    (hlog : y.log = x.log ++ (before ++ .read x.reader? c v :: after))
    (hb : ∀ o ∈ before, o.OfCell) (haft : ∀ o ∈ after, o.OfCell)
    (hfinal : ¬x.Touched → Final home y c v) {f : Frame S} (hf : f ∈ x.frames)
    (hh : f.head = none) (hre : (y.log.run f.unit.id).reentered = false) :
    Backed home y f.unit.id := by
  obtain ⟨g, rest, hg⟩ := List.exists_cons_of_ne_nil (List.ne_nil_of_mem hf)
  have hreader : x.reader? = some g.unit.id := by rw [Moment.reader?, hg]; rfl
  by_cases hid : f.unit.id = g.unit.id
  · have htop : f = g := by
      rw [hg] at hf
      rcases List.mem_cons.1 hf with hf | hf
      · exact hf
      · exact absurd hid.symm (hx.manned.ne_of_mem_rest hg hf)
    subst htop
    have hrun : y.log.run f.unit.id =
        { x.log.run f.unit.id with reads := (x.log.run f.unit.id).reads ++ [⟨c, v⟩] } := by
      rw [hlog, History.run_append_read hb haft, hreader, Run.next, if_pos rfl]
    rw [hrun] at hre
    have hclean : ¬x.Touched := by
      rintro ⟨f', rest', hf', htouched⟩
      rw [hg] at hf'
      cases hf'
      rcases htouched with htouched | htouched
      · exact htouched hh
      · cases hre.symm.trans htouched
    intro r hr
    rw [hrun] at hr
    rcases List.mem_append.1 hr with hr | hr
    · exact (h.frames f hf hh hre r hr).advance hx ha
    · cases List.mem_singleton.1 hr
      exact hfinal hclean
  · refine h.backed_of_idle hx ha hlog hf hh (fun o ho hby => ?_) hre
    rcases List.mem_append.1 ho with ho | ho
    · exact (hb o ho).not_by _ hby
    rcases List.mem_cons.1 ho with rfl | ho
    · exact hid (Option.some.inj (hreader.symm.trans hby)).symm
    · exact (haft o ho).not_by _ hby

/-- Units on the stack are backed unless a cycle touches them. -/
theorem Grounded.backed_of_advance (h : Grounded k home issued x)
    (hx : Sound k home owner issued x) (ha : Advance k home owner issued x y) {f : Frame S}
    (hf : f ∈ y.frames) (hh : f.head = none) (hre : (y.log.run f.unit.id).reentered = false) :
    Backed home y f.unit.id := by
  -- The units below the topmost one do nothing when it ends.
  have hbelow : ∀ {g g' : Frame S} {rest : List (Frame S)} {new : History S}
      {result : Except Error Unit}, x.frames = g :: rest → f ∈ rest →
      y.log = x.log ++ new ++ [.ended g' result] → g'.unit = g.unit → (∀ o ∈ new, o.OfCell) →
      Backed home y f.unit.id := by
    intro g g' rest new result hg hmem hlog hunit hnew
    rw [List.append_assoc] at hlog
    refine h.backed_of_idle hx ha hlog (by rw [hg]; exact List.mem_cons_of_mem _ hmem) hh
      (fun o ho hby => ?_) hre
    rcases List.mem_append.1 ho with ho | ho
    · exact (hnew o ho).not_by _ hby
    · cases List.mem_singleton.1 ho
      exact hx.manned.ne_of_mem_rest hg hmem (hunit ▸ hby)
  have hadvance := ha
  cases ha with
  | note hw =>
    exact h.backed_of_idle hx hadvance (List.append_nil _).symm hf hh
      (List.forall_mem_nil _) hre
  | @start u w hu hwant hc hd hw =>
    rcases List.mem_cons.1 hf with rfl | hf
    · intro r hr
      rw [History.run_append_singleton, Run.next, if_pos rfl] at hr
      cases hr
    · refine h.backed_of_idle hx hadvance rfl hf hh (fun o ho hby => ?_) hre
      cases List.mem_singleton.1 ho
      exact Frame.indexOf?_eq_none_iff.1 hc.off f hf hby.symm
  | recur hu hwant hon hs hw =>
    refine h.backed_of_idle hx hadvance rfl (Frame.mem_joinCycleAbove hf hh) hh
      (fun o ho hby => ?_) hre
    cases List.mem_singleton.1 ho
    exact hby
  | look hv =>
    exact h.backed_of_read hx hadvance (congrArg (x.log ++ ·) (List.nil_append _).symm)
      (List.forall_mem_nil _) (List.forall_mem_nil _) (fun _ => .inl hv) hf hh hre
  | finish hu hs hy =>
    obtain ⟨before, after, hlog, hb, haft⟩ := hy.log_eq
    rw [hy.frames_eq] at hf
    exact h.backed_of_read hx hadvance hlog hb haft (hy.final hx hu hs) hf hh hre
  | @doom g rest w d hg hd hw =>
    have hapart : ∀ {id : UnitId}, ∀ o ∈ ([.reported d] : History S), ¬o.By id := by
      simp [Occurrence.By]
    rcases List.mem_cons.1 hf with rfl | hf
    · exact h.backed_of_idle (f := g) hx hadvance rfl (by rw [hg]; exact List.mem_cons_self) hh
        hapart hre
    · exact h.backed_of_idle hx hadvance rfl (by rw [hg]; exact List.mem_cons_of_mem _ hf) hh
        hapart hre
  | stop hg hw =>
    exact hbelow hg hf (congrArg (· ++ _) (List.append_nil x.log).symm) rfl
      (List.forall_mem_nil _)
  | succeed hg hd hhd hfollows hw =>
    exact hbelow hg hf rfl rfl fun o ho => World.ofCell_of_mem_announcing ho
  | defer hg hd hhd hw =>
    refine hbelow hg hf rfl rfl fun o ho => ?_
    cases List.mem_singleton.1 ho
    trivial
  | lose hg hd hfollows hw =>
    refine hbelow hg hf (congrArg (· ++ _) (List.append_assoc x.log _ _)) rfl fun o ho => ?_
    rcases List.mem_append.1 ho with ho | ho
    · cases List.mem_singleton.1 ho
      trivial
    · exact World.ofCell_of_mem_announcing ho

theorem Grounded.advance (h : Grounded k home issued x) (hx : Sound k home owner issued x)
    (ha : Advance k home owner issued x y) : Grounded k home issued y := by
  refine ⟨fun f hf hh hre => h.backed_of_advance hx ha hf hh hre, fun u hu s hs ht => ?_⟩
  by_cases hold : ∃ s, (x.world.scheduler home).status? u.id = some s ∧ s.isTerminal = true
  · obtain ⟨s', hs', ht'⟩ := hold
    obtain ⟨f, result, hclosed⟩ := h.ended u hu s' hs' ht'
    rw [hclosed.status] at hs'
    exact ⟨f, result, hclosed.advance (Option.some.inj hs' ▸ ht') hx ha⟩
  · refine h.closed_of_advance hx ha hu hs ht fun s' hs' => ?_
    exact Bool.eq_false_iff.2 fun ht' => hold ⟨s', hs', ht'⟩

theorem Grounded.advances (h : Grounded k home issued x) (hx : Sound k home owner issued x)
    (ha : Advances k home owner issued x y) : Grounded k home issued y := by
  induction ha with
  | refl => exact h
  | tail hb ha ih => exact ih.advance (hx.advances hb) ha

/-! ## Sessions -/

/-- Between operations, units and cells that are there already are left alone. -/
private theorem Grounded.at_rest {issued' : List (WorkUnit S.Rule)}
    (h : Grounded k home issued ⟨log, w, []⟩) (hx : Sound k home owner issued ⟨log, w, []⟩)
    (hrun : ∀ id, log'.run id = log.run id)
    (hcell : ∀ c, (w.cell c).resolver ≠ none →
      (w'.cell c).value = (w.cell c).value ∧ (w'.cell c).resolver = (w.cell c).resolver)
    (hstatus : ∀ id s, (w.scheduler home).status? id = some s →
      (w'.scheduler home).status? id = some s)
    (hissued : ∀ u ∈ issued', ∀ s, (w'.scheduler home).status? u.id = some s →
      s.isTerminal = true → u ∈ issued) : Grounded k home issued' ⟨log', w', []⟩ := by
  have hforced : ∀ {c : S.Key} {v : S.Val c}, (w.cell c).value = .forced v →
      (w'.cell c).value = .forced v := by
    intro c v hv
    rw [(hcell c fun hnone => ?_).1, hv]
    rw [hx.stored.bare c hnone] at hv
    cases hv
  refine ⟨nofun, fun u hu s hs ht => ?_⟩
  have hu := hissued u hu s hs ht
  obtain ⟨s', hs'⟩ := Scheduler.exists_status?_of_lt _ (hx.manned.lists.lt_size hu)
  obtain rfl := Option.some.inj ((hstatus u.id s' hs').symm.trans hs)
  obtain ⟨f, result, hclosed⟩ := h.ended u hu s' hs' ht
  refine ⟨f, result, (congrArg Run.ended (hrun u.id)).trans hclosed.ended,
    hstatus u.id _ hclosed.status, fun hh hre r hr => ?_, fun hr => ?_⟩
  · have hbacked := hclosed.backed hh ((congrArg Run.reentered (hrun u.id)).symm.trans hre)
    rcases hbacked r (by rw [← show log'.run u.id = log.run u.id from hrun u.id]; exact hr)
      with hv | ⟨hv, v, hres, hfail | ⟨g, hg, -⟩⟩
    · exact .inl (hforced hv)
    · refine .inr ⟨hv, v, ?_, .inl (hstatus _ _ hfail)⟩
      rw [(hcell r.1 (by rw [hres]; nofun)).2]
      exact hres
    · cases hg
  · obtain ⟨v, hfollows, hv⟩ := hclosed.follows hr
    refine ⟨v, ?_, fun hd => hforced (hv hd)⟩
    rw [show log'.run u.id = log.run u.id from hrun u.id]
    exact hfollows

theorem Course.grounded (h : Course k home log w issued) : Grounded k home issued ⟨log, w, []⟩ := by
  induction h with
  | start => exact ⟨nofun, nofun⟩
  | @rule log log' w w' issued u e e' label phase rule hc hfree he ht hu ih =>
    obtain ⟨rfl, rfl, rfl⟩ := world_of_setRule he ht hu
    have hw := World.ruled w (hc.sound 0).manned.exists_home (k.target rule) label phase rule
    have hstatus : ∀ id, ((World.resolveWith _ (k.target rule) _).scheduler home).status? id =
        if id = (w.scheduler home).entries.size then some .new
        else (w.scheduler home).status? id := fun id => by
      rw [hw.scheduler, Scheduler.status?_register]
    refine ih.at_rest (hc.sound 0) (fun id => ?_) (fun c hc => ?_) (fun id s hs => ?_)
      fun v hv s hs hterminal => ?_
    · exact History.run_append_of_cells (by simp [Occurrence.OfCell])
    · rw [hw.other c fun heq => hc (heq ▸ hfree)]
      exact ⟨rfl, rfl⟩
    · rw [hstatus, if_neg (Nat.ne_of_lt (Scheduler.lt_size_of_status? _ hs))]
      exact hs
    · rcases List.mem_append.1 hv with hv | hv
      · exact hv
      · cases List.mem_singleton.1 hv
        cases (Option.some.inj (((hstatus _).trans (if_pos rfl)).symm.trans hs) : Status.new = s)
        cases hterminal
  | @hook log log' w w' issued c hook e e' hc he ht hu ih =>
    obtain ⟨rfl, rfl⟩ := world_of_addHook he ht hu
    refine ih.at_rest (hc.sound 0) (fun id => ?_) (fun d _ => w.addHook_wiring c hook d)
      (fun id s hs => hs) fun u hu _ _ _ => hu
    exact History.run_append_singleton _ _ _
  | @get log log' w w' issued c r e e' hc he ht hr ih =>
    have htold := (hc.sound e.id).told he ht hr
    refine (ih.advances (hc.sound e.id) htold.advances).at_rest
      ((hc.sound e.id).advances htold.advances) (fun id => ?_) (fun c _ => ⟨rfl, rfl⟩)
      (fun id s hs => hs) fun u hu _ _ _ => hu
    exact History.run_append_singleton _ _ _
  | pass hc hw ih =>
    refine ih.at_rest (hc.sound 0) (fun id => rfl) (fun c _ => ?_) (fun id s hs => ?_)
      fun u hu _ _ _ => hu
    · rw [hw.cell]
      exact ⟨rfl, rfl⟩
    · rw [hw.status?]
      exact hs

end Attribution.Engine
