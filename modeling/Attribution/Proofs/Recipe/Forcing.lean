import Attribution.Proofs.Engine.Effect
import Attribution.Proofs.Recipe.Course
/-!
# Final values are final

A cell gets its final value once. From then on it keeps it, its hooks are called
with it, each one once and in the order in which they were added, and whoever
reads the cell is given that value at once.

* `History.Tells` is what a history tells of a cell that holds a given value;
* `Chronicled` says that the history tells the truth about all cells, which an
  advance preserves (`Chronicled.advance`);
* `Course.forced_once` puts it together for every session over recipes.
-/

namespace Attribution.Engine

variable {S : Schema} {m : Model S} {k : Rulebook m} {home : SchedulerId} {owner : EvaluatorId}
  {issued : List (WorkUnit S.Rule)} {log log' new : History S} {w w' : World S} {x y : Moment S}
  {c : S.Key}

def Occurrence.Concerns (c : S.Key) : Occurrence S → Prop
  | .wrote d _ | .called d _ _ => d = c
  | _ => False

namespace History

def hooksOf (log : History S) (c : S.Key) : List S.Hook :=
  log.filterMap fun
    | .hooked d h => if d = c then some h else none
    | _ => none

def Unforced (log : History S) (c : S.Key) : Prop :=
  (∀ v, .wrote c (.forced v) ∉ log) ∧ ∀ h v, .called c h v ∉ log

/-- A final value was written to the cell once. Right then the hooks that the
cell had were called with it, in order; ever since, nothing was written and no
hook was called. -/
def ForcedOnce (log : History S) (c : S.Key) (v : S.Val c) : Prop :=
  ∃ before after : History S, log = before ++ .wrote c (.forced v) ::
      ((before.hooksOf c).map fun h => .called c h v) ++ after ∧
    before.Unforced c ∧ ∀ o ∈ after, ¬o.Concerns c

theorem ForcedOnce.spares {before after : History S} {v v' : S.Val c} (h : log.ForcedOnce c v)
    (hlog : log = before ++ .wrote c (.forced v') :: after) : v' = v ∧ after.Spares c := by
  obtain ⟨before', after', heq, hopen, hafter⟩ := h
  have hrest : ∀ a, .wrote c a ∉ ((before'.hooksOf c).map fun h => .called c h v) ++ after' := by
    intro a ha
    rcases List.mem_append.1 ha with ha | ha
    · simp at ha
    · exact hafter _ ha rfl
  rw [hlog, List.append_assoc, List.cons_append, List.append_eq_append_iff] at heq
  obtain ⟨mid, rfl, hmid⟩ | ⟨mid, rfl, hmid⟩ := heq
  · cases mid with
    | nil =>
      obtain ⟨ho, rfl⟩ := List.cons.inj hmid
      cases ho
      exact ⟨rfl, hrest⟩
    | cons o mid =>
      obtain ⟨rfl, -⟩ := List.cons.inj hmid
      exact absurd (by simp) (hopen.1 v')
  · cases mid with
    | nil =>
      obtain ⟨ho, rfl⟩ := List.cons.inj hmid
      cases ho
      exact ⟨rfl, hrest⟩
    | cons o mid =>
      obtain ⟨-, hmid⟩ := List.cons.inj hmid
      exact absurd (by rw [hmid]; simp) (hrest (.forced v'))

def Tells (log : History S) (c : S.Key) : CellValue (S.Val c) → Prop
  | .forced v => log.ForcedOnce c v
  | _ => log.Unforced c

@[simp] theorem hooksOf_append (log new : History S) (c : S.Key) :
    (log ++ new).hooksOf c = log.hooksOf c ++ new.hooksOf c :=
  List.filterMap_append

theorem hooksOf_eq_nil (h : ∀ d hook, .hooked d hook ∉ log) (c : S.Key) : log.hooksOf c = [] := by
  refine List.filterMap_eq_nil_iff.2 fun o ho => ?_
  cases o with
  | hooked d hook => exact absurd ho (h d hook)
  | _ => rfl

theorem Unforced.append (h : log.Unforced c) (hw : ∀ v, .wrote c (.forced v) ∉ new)
    (hc : ∀ hook v, .called c hook v ∉ new) : (log ++ new).Unforced c :=
  ⟨fun v hv => (List.mem_append.1 hv).elim (h.1 v) (hw v),
    fun hook v hv => (List.mem_append.1 hv).elim (h.2 hook v) (hc hook v)⟩

/-- What does not concern a cell changes nothing of what is told of it. -/
theorem Tells.append {v : CellValue (S.Val c)} (h : log.Tells c v)
    (hnew : ∀ o ∈ new, ¬o.Concerns c) : (log ++ new).Tells c v := by
  cases v with
  | forced v =>
    obtain ⟨before, after, rfl, hb, ha⟩ := h
    refine ⟨before, after ++ new, by simp, hb, fun o ho => ?_⟩
    exact (List.mem_append.1 ho).elim (ha o) (hnew o)
  | unset | soft v =>
    exact Unforced.append h (fun a ha => hnew _ ha rfl) fun hook a ha => hnew _ ha rfl

theorem Tells.unforced {v : CellValue (S.Val c)} (h : log.Tells c v) (hv : v.isForced = false) :
    log.Unforced c := by
  cases v with
  | forced a => cases hv
  | unset | soft a => exact h

theorem Tells.soften {v v' : CellValue (S.Val c)} (h : log.Tells c v) (hv : v.isForced = false)
    (hv' : v'.isForced = false) : Tells (log ++ [.wrote c v']) c v' := by
  have hopen : log.Unforced c := h.unforced hv
  cases v' with
  | forced a => cases hv'
  | unset | soft a => exact hopen.append (by simp) (by simp)

theorem Tells.announce {v : CellValue (S.Val c)} (h : log.Tells c v) (hv : v.isForced = false)
    (hhooks : (w.cell c).hooks = log.hooksOf c) (a : S.Val c) :
    (log ++ w.announcing c a).Tells c (.forced a) := by
  have hopen : log.Unforced c := h.unforced hv
  exact ⟨log, [], by rw [World.announcing, hhooks, List.append_nil], hopen,
    List.forall_mem_nil _⟩

theorem Tells.eq_of_mem {v : CellValue (S.Val c)} {a : S.Val c} (h : log.Tells c v)
    (ha : .wrote c (.forced a) ∈ log) : v = .forced a := by
  cases v with
  | unset | soft b => exact absurd ha (h.1 a)
  | forced b =>
    obtain ⟨before, after, hlog⟩ := List.append_of_mem ha
    rw [(ForcedOnce.spares h hlog).1]

theorem Tells.mem {a : S.Val c} (h : log.Tells c (.forced a)) : .wrote c (.forced a) ∈ log := by
  obtain ⟨before, after, rfl, -⟩ := h
  simp

end History

/-- The history tells the truth about hooks and values. -/
def Chronicled (log : History S) (w : World S) : Prop :=
  ∀ c, (w.cell c).hooks = log.hooksOf c ∧ log.Tells c (w.cell c).value

namespace Chronicled

theorem like (h : Chronicled log w) (hw : ∀ c, w'.cell c = w.cell c) : Chronicled log w' := by
  intro c
  rw [hw]
  exact h c

theorem append (h : Chronicled log w) (hw : ∀ c, w'.cell c = w.cell c)
    (hhooked : ∀ c hook, .hooked c hook ∉ new) (hnew : ∀ c, ∀ o ∈ new, ¬o.Concerns c) :
    Chronicled (log ++ new) w' := by
  refine like (fun c => ?_) hw
  obtain ⟨hhooks, htells⟩ := h c
  rw [History.hooksOf_append, History.hooksOf_eq_nil hhooked, List.append_nil]
  exact ⟨hhooks, htells.append (hnew c)⟩

private theorem setValue (h : Chronicled log w) {v : CellValue (S.Val c)}
    (hw : ∀ d, w'.cell d = (w.setValue c v).cell d)
    (hhooked : ∀ c hook, .hooked c hook ∉ new) (hself : (log ++ new).Tells c v)
    (hother : ∀ d, c ≠ d → ∀ o ∈ new, ¬o.Concerns d) : Chronicled (log ++ new) w' := by
  intro d
  obtain ⟨hhooks, htells⟩ := h d
  rw [hw, History.hooksOf_append, History.hooksOf_eq_nil hhooked, List.append_nil]
  by_cases hd : c = d
  · subst hd
    rw [World.cell_setValue_self]
    exact ⟨hhooks, hself⟩
  · rw [World.cell_setValue_ne _ _ hd]
    exact ⟨hhooks, htells.append (hother d hd)⟩

theorem soften (h : Chronicled log w) (hv : (w.cell c).value.isForced = false) (a : S.Val c)
    (hw : ∀ d, w'.cell d = (w.setValue c (.soft a)).cell d) :
    Chronicled (log ++ [.wrote c (.soft a)]) w' :=
  h.setValue hw (by simp) ((h c).2.soften hv rfl) fun d hd o ho hcon => hd (by
    cases List.mem_singleton.1 ho
    exact hcon)

theorem announce (h : Chronicled log w) (hv : (w.cell c).value.isForced = false) (a : S.Val c)
    (hw : ∀ d, w'.cell d = (w.setValue c (.forced a)).cell d) :
    Chronicled (log ++ w.announcing c a) w' := by
  refine h.setValue hw (by simp [World.announcing]) ((h c).2.announce hv (h c).1 a)
    fun d hd o ho hcon => hd ?_
  rcases List.mem_cons.1 ho with rfl | ho
  · exact hcon
  · obtain ⟨hook, -, rfl⟩ := List.mem_map.1 ho
    exact hcon

theorem ruled {u : WorkUnit S.Rule} (h : Chronicled log w) (hw : w.Ruled home c u w')
    (hv : (w.cell c).value.isForced = false) : Chronicled (log ++ [.wrote c .unset]) w' := by
  intro d
  obtain ⟨hhooks, htells⟩ := h d
  have hhooks' : (log ++ [Occurrence.wrote c .unset] : History S).hooksOf d = log.hooksOf d := by
    simp [History.hooksOf]
  rw [hhooks']
  by_cases hd : c = d
  · subst hd
    rw [hw.self]
    exact ⟨hhooks, htells.soften hv rfl⟩
  · rw [hw.other d hd]
    exact ⟨hhooks, htells.append (by simp [Occurrence.Concerns, hd])⟩

theorem addHook (h : Chronicled log w) (c : S.Key) (hook : S.Hook) :
    Chronicled (log ++ [.hooked c hook]) (w.addHook c hook) := by
  intro d
  obtain ⟨hhooks, htells⟩ := h d
  rw [History.hooksOf_append, ← hhooks, World.addHook]
  have htells : History.Tells (log ++ [.hooked c hook]) d (w.cell d).value :=
    htells.append (by simp [Occurrence.Concerns])
  by_cases hd : c = d
  · subst hd
    rw [World.cell_modifyCell_self]
    exact ⟨by simp [History.hooksOf], htells⟩
  · rw [World.cell_modifyCell_ne _ _ hd]
    exact ⟨by simp [History.hooksOf, hd], htells⟩

private theorem open_top (hx : Sound k home owner issued x) {f : Frame S} (hf : f ∈ x.frames) :
    (x.world.cell (k.target f.unit.rule)).value.isForced = false := by
  obtain ⟨s, hs, ht⟩ := hx.manned.top_status hf
  have hagrees := hx.stored.agrees f.unit (hx.manned.registered f hf)
  rw [hs] at hagrees
  cases hv : (x.world.cell (k.target f.unit.rule)).value with
  | forced a => exact absurd hv (hagrees.not_forced ht a)
  | unset | soft a => rfl

theorem advance (h : Chronicled x.log x.world) (hx : Sound k home owner issued x)
    (ha : Advance k home owner issued x y) : Chronicled y.log y.world := by
  have htop : ∀ {f : Frame S} {rest : List (Frame S)}, x.frames = f :: rest → f ∈ x.frames :=
    fun hf => by rw [hf]; exact List.mem_cons_self
  have hplain : ∀ {log : History S} {v : World S} {o : Occurrence S}, Chronicled log v →
      (∀ c hook, .hooked c hook ≠ o) → (∀ c, ¬o.Concerns c) → Chronicled (log ++ [o]) v :=
    fun hc hhooked hcon => hc.append (fun _ => rfl)
      (fun c hook hmem => hhooked c hook (List.mem_singleton.1 hmem))
      fun c o ho => by rw [List.mem_singleton.1 ho]; exact hcon c
  cases ha with
  | note hw => exact h.like hw.cell
  | start hu hwant hc hd hw => exact h.append hw.cell (by simp) (by simp [Occurrence.Concerns])
  | recur hu hwant hon hs hw => exact h.append hw.cell (by simp) (by simp [Occurrence.Concerns])
  | look hv => exact hplain h nofun fun _ => id
  | @finish y c u outcome p hu hs hy =>
    cases hy with
    | held | failing => exact hplain h nofun fun _ => id
    | fellBack ho hval hp hw =>
      have hsoft := h.soften (by rw [hval]; rfl) (S.fallback c) hw.cell
      rw [List.append_cons]
      exact hplain hsoft nofun fun _ => id
    | lost hval hp hw =>
      have hread : Chronicled (x.log ++ [.read x.reader? c p.value]) x.world :=
        hplain h nofun fun _ => id
      exact hread.announce hval _ hw.cell
  | doom d hf hd hw => exact h.append hw.cell (by simp) (by simp [Occurrence.Concerns])
  | stop hf hw => exact h.append hw.cell (by simp) (by simp [Occurrence.Concerns])
  | succeed hf hd hh hfollows hw =>
    exact hplain (h.announce (open_top hx (htop hf)) _ hw.cell) nofun fun _ => id
  | defer hf hd hh hw => exact hplain (h.soften (open_top hx (htop hf)) _ hw.cell) nofun fun _ => id
  | @lose f rest v w hf hd hfollows hw =>
    have hsoft := h.soften (open_top hx (htop hf)) v fun _ => rfl
    have hover := (x.world.akin_setValue (.soft v) (.forced (S.sentinel _)) : World.Akin home _ _)
    have hannounce := hsoft.announce (by rw [World.cell_setValue_self]; rfl)
      (S.sentinel (k.target f.unit.rule)) fun d => (hw.cell d).trans (hover.cell d).symm
    rw [World.announcing, World.cell_setValue_self] at hannounce
    exact hplain hannounce nofun fun _ => id

theorem advances (h : Chronicled x.log x.world) (hx : Sound k home owner issued x)
    (ha : Advances k home owner issued x y) : Chronicled y.log y.world := by
  induction ha with
  | refl => exact h
  | tail hb ha ih => exact ih.advance (hx.advances hb) ha

end Chronicled

/-- What recipes never do: a caller is given a result, or code changes the environment. -/
def Occurrence.OfCaller : Occurrence S → Prop
  | .gave _ _ | .changed _ => True
  | _ => False

theorem Occurrence.OfCell.not_ofCaller {o : Occurrence S} (h : o.OfCell) : ¬o.OfCaller := by
  cases o with
  | gave | changed => exact h.elim
  | _ => exact id

theorem Advance.exists_append (h : Advance k home owner issued x y) :
    ∃ new, y.log = x.log ++ new ∧ ∀ o ∈ new, ¬o.OfCaller := by
  have hcells : ∀ (c : S.Key) (v : S.Val c), ∀ o ∈ x.world.announcing c v, ¬o.OfCaller :=
    fun c v o ho => (World.ofCell_of_mem_announcing ho).not_ofCaller
  cases h with
  | note => exact ⟨[], (List.append_nil _).symm, List.forall_mem_nil _⟩
  | finish hu hs hy =>
    obtain ⟨before, after, hlog, hb, ha⟩ := hy.log_eq
    refine ⟨_, hlog, fun o ho => ?_⟩
    rcases List.mem_append.1 ho with ho | ho
    · exact (hb o ho).not_ofCaller
    · rcases List.mem_cons.1 ho with rfl | ho
      · exact id
      · exact (ha o ho).not_ofCaller
  | start | recur | look | doom | stop => exact ⟨_, rfl, by simp [Occurrence.OfCaller]⟩
  | defer => exact ⟨_, List.append_assoc _ _ _, by simp [Occurrence.OfCaller]⟩
  | succeed =>
    refine ⟨_, List.append_assoc _ _ _, List.forall_mem_append.2 ⟨hcells _ _, ?_⟩⟩
    simp [Occurrence.OfCaller]
  | lose =>
    rw [List.append_assoc, List.append_assoc]
    refine ⟨_, rfl, List.forall_mem_append.2 ⟨?_, List.forall_mem_append.2 ⟨hcells _ _, ?_⟩⟩⟩
    · simp [Occurrence.OfCaller]
    · simp [Occurrence.OfCaller]

theorem Advances.exists_append (h : Advances k home owner issued x y) :
    ∃ new, y.log = x.log ++ new ∧ ∀ o ∈ new, ¬o.OfCaller := by
  induction h with
  | refl => exact ⟨[], (List.append_nil _).symm, List.forall_mem_nil _⟩
  | tail _ ha ih =>
    obtain ⟨new, hnew, hcaller⟩ := ih
    obtain ⟨more, hmore, hcaller'⟩ := ha.exists_append
    refine ⟨new ++ more, by rw [hmore, hnew, List.append_assoc], ?_⟩
    exact List.forall_mem_append.2 ⟨hcaller, hcaller'⟩

theorem Advances.gave_mem (h : Advances k home owner issued x y)
    {r : Except Error (Probe (S.Val c))} (hr : .gave c r ∈ y.log) : .gave c r ∈ x.log := by
  obtain ⟨new, hnew, hcaller⟩ := h.exists_append
  rw [hnew] at hr
  exact (List.mem_append.1 hr).resolve_right fun hr => absurd trivial (hcaller _ hr)

/-! ## Sessions -/

namespace Course

theorem chronicled (h : Course k home log w issued) : Chronicled log w := by
  induction h with
  | start w h =>
    intro c
    rw [h.no_cells]
    exact ⟨rfl, by simp [History.Tells, History.Unforced]⟩
  | rule hc hfree he ht hu ih =>
    obtain ⟨rfl, rfl, rfl⟩ := world_of_setRule he ht hu
    exact ih.ruled (World.ruled _ (hc.sound 0).manned.exists_home _ _ _ _)
      (by rw [(hc.sound 0).stored.bare _ hfree]; rfl)
  | hook hc he ht hu ih =>
    obtain ⟨rfl, rfl⟩ := world_of_addHook he ht hu
    exact ih.addHook _ _
  | @get log log' w w' issued c r e e' hc he ht hr ih =>
    have htold := (hc.sound e.id).told he ht hr
    exact (ih.advances (hc.sound e.id) htold.advances).append (fun _ => rfl) (by simp)
      (by simp [Occurrence.Concerns])
  | pass hc hw ih => exact ih.like hw.cell

theorem value_of_gave (h : Course k home log w issued) {p : Probe (S.Val c)}
    (hp : .gave c (.ok p) ∈ log) : (w.cell c).value = .forced p.value := by
  refine (h.chronicled c).2.eq_of_mem ?_
  induction h with
  | start => cases hp
  | rule hc hfree he ht hu ih =>
    obtain ⟨rfl, -, -⟩ := world_of_setRule he ht hu
    exact List.mem_append_left _ (ih (by simpa using hp))
  | hook hc he ht hu ih =>
    obtain ⟨rfl, -⟩ := world_of_addHook he ht hu
    exact List.mem_append_left _ (ih (by simpa using hp))
  | @get log log' w w' issued d r e e' hc he ht hr ih =>
    have htold := (hc.sound e.id).told he ht hr
    refine List.mem_append_left _ ?_
    rcases List.mem_append.1 hp with hp | hp
    · obtain ⟨new, rfl⟩ := ht.exists_append
      exact List.mem_append_left _ (ih (htold.advances.gave_mem hp))
    · cases List.mem_singleton.1 hp
      have hchron := hc.chronicled.advances (hc.sound e.id) htold.advances c
      rw [htold.value p rfl] at hchron
      exact hchron.2.mem
  | pass hc hw ih => exact ih hp

section Read

variable {d : S.Key} {e e' : Evaluator S (Except Error (Probe (S.Val d)))}

/-- When a read by a caller has ended, the history tells the truth again. -/
theorem chronicled_of_gave (h : Course k home log w issued) (he : e.Begins home (Action.probe d))
    (ht : Traces m log w e log' w' e') {r : Except Error (Probe (S.Val d))} (hr : e'.Gave r) :
    Chronicled log' w' :=
  h.chronicled.advances (h.sound e.id) ((h.sound e.id).told he ht hr).advances

/-- A read by a caller ends, whatever has been done of it so far. -/
theorem exists_gave (h : Course k home log w issued) (he : e.Begins home (Action.probe d))
    (ht : Traces m log w e log' w' e') :
    Comes m (fun _ _ e => ∃ r, e.Gave r) log' w' e' := by
  have hcomes := comes_read (h.sound e.id) rfl he.idle he.focus
  refine (hcomes.of_traces (fun _ _ _ ⟨r, frames, _, he'⟩ pick => ?_) ht).mono ?_
  · rw [he', Evaluator.step, he.idle.writes]
  · rintro _ _ _ ⟨r, frames, hr, rfl⟩
    exact ⟨r, rfl, he.idle.writes⟩

/-- At every moment of a read, the final values are those that were written. -/
theorem forced_iff (h : Course k home log w issued) (he : e.Begins home (Action.probe d))
    (ht : Traces m log w e log' w' e') (v : S.Val c) :
    (w'.cell c).value = .forced v ↔ .wrote c (.forced v) ∈ log' := by
  obtain ⟨new, rfl, hleaves⟩ := ht.leaves
  constructor
  · intro hv
    rcases hleaves c with ⟨-, hsame⟩ | ⟨before, after, rfl, -⟩
    · have htells := (h.chronicled c).2
      rw [← hsame, hv] at htells
      exact List.mem_append_left _ htells.mem
    · rw [hv]
      simp
  · intro hmem
    rcases hleaves c with ⟨hspares, hsame⟩ | ⟨before, after, rfl, hafter⟩
    · rw [hsame]
      exact (h.chronicled c).2.eq_of_mem ((List.mem_append.1 hmem).resolve_right (hspares _))
    -- What is written later in this run is told in the history of the whole run.
    · obtain ⟨log'', w'', e'', ht', r, hr⟩ := (h.exists_gave he ht).exists_traces
      obtain ⟨more, hmore⟩ := ht'.exists_append
      have htells := (h.chronicled_of_gave he (ht.trans ht') hr c).2
      have hv := htells.eq_of_mem (by rw [hmore]; exact List.mem_append_left _ hmem)
      rw [hv] at htells
      rw [← List.append_assoc] at hmem
      rcases List.mem_append.1 hmem with hmem | hmem
      · obtain ⟨before', after', hsplit⟩ := List.append_of_mem hmem
        have hlog : log'' = before' ++ .wrote c (.forced v) ::
            (after' ++ .wrote c (w'.cell c).value :: (after ++ more)) := by
          rw [hmore, ← List.append_assoc, hsplit]
          simp
        exact absurd (by simp) ((History.ForcedOnce.spares htells hlog).2 (w'.cell c).value)
      · rcases List.mem_cons.1 hmem with hmem | hmem
        · exact (eq_of_heq (Occurrence.wrote.inj hmem).2).symm
        · exact absurd hmem (hafter _)

/-- At every moment of a read, the hooks that were called and the reports that were sent
account for what has become of the environment. -/
theorem affects (h : Course k home log w issued) (he : e.Begins home (Action.probe d))
    (ht : Traces m log w e log' w' e') :
    ∃ new, log' = log ++ new ∧ (∀ f, .changed f ∉ new) ∧
      w'.outlet home = new.affect m (w.outlet home) := by
  have hhome : e.home < w.schedulers.size := by
    rw [he.idle.home]
    exact (h.sound e.id).manned.exists_home
  obtain ⟨new, rfl, haffects⟩ := ht.affects hhome
  refine ⟨new, rfl, fun f hf => ?_, by rw [← he.idle.home]; exact haffects.outlet⟩
  -- The whole read does nothing that only a caller does, so neither does this part of it.
  obtain ⟨log'', w'', e'', ht', r, hr⟩ := (h.exists_gave he ht).exists_traces
  obtain ⟨more, rfl⟩ := ht'.exists_append
  obtain ⟨all, hall, hcaller⟩ :=
    ((h.sound e.id).told he (ht.trans ht') hr).advances.exists_append
  have heq : new ++ more = all :=
    List.append_cancel_left ((List.append_assoc _ _ _).symm.trans hall)
  rw [← heq] at hcaller
  exact absurd trivial (hcaller _ (List.mem_append_left _ hf))

/-- **A final value is written once.** Whatever a caller reads and wherever the
evaluation stands: a cell holds a final value if and only if that value was
written to it, so no final value is ever lost. The read ends. Before it and
after it, the history tells of each cell that it never got a final value and
that none of its hooks was called, or that it got its value once, that the hooks
which it had then were called in order and once, and that nothing was done to it
since. The environment is what the hooks that were called, one after the other, have made
of it, together with the reports if the session hands them on. A value that is given to a
caller is the final value of the cell, and whoever reads that cell gets it at once. -/
theorem forced_once (h : Course k home log w issued) (he : e.Begins home (Action.probe d))
    (ht : Traces m log w e log' w' e') :
    (∀ c, log.Tells c (w.cell c).value) ∧
    (∀ c p, .gave c (.ok p) ∈ log → (w.cell c).value = .forced p.value) ∧
    (∀ c v, (w'.cell c).value = .forced v ↔ .wrote c (.forced v) ∈ log') ∧
    Ends m (fun _ e => ∃ r, e.Gave r) w' e' ∧
    (∃ new, log' = log ++ new ∧ (∀ f, .changed f ∉ new) ∧
      w'.outlet home = new.affect m (w.outlet home)) ∧
    ∀ r, e'.Gave r →
      (∀ c, log'.Tells c (w'.cell c).value) ∧
      (∀ p, r = .ok p → (w'.cell d).value = .forced p.value) ∧
      ∀ v, (w.cell d).value = .forced v →
        r = .ok (.ready v) ∧ log' = log ++ [.read none d v] ∧ w' = w := by
  refine ⟨fun c => (h.chronicled c).2, fun c p => h.value_of_gave, fun c v => h.forced_iff he ht v,
    (h.exists_gave he ht).ends.mono fun w' e' ⟨_, hr⟩ => hr, h.affects he ht, fun r hr => ?_⟩
  have htold := (h.sound e.id).told he ht hr
  refine ⟨fun c => (h.chronicled_of_gave he ht hr c).2, htold.value, fun v hv => ?_⟩
  obtain ⟨hr, heq⟩ := htold.held v hv
  cases heq
  exact ⟨hr, rfl, rfl⟩

end Read

/-- Two cells, each of which is one more than the other. -/
private abbrev facing (r : Nat) : Recipe (sheetOver (List (Nat × Nat × Nat))) Nat :=
  .probe (1 - r : Nat) fun
    | .ok p => .done (p.value + 1 : Nat)
    | .error x => .stop x

/-- The hooks put down what they are called with. -/
private def minuted : Model (sheetOver (List (Nat × Nat × Nat))) where
  body r := (facing r).body r
  react c h v env := (env ++ [(c, h, v)], none)
  receive _ env := env

private def minutes : Rulebook minuted :=
  ⟨id, facing, fun _ => rfl, fun _ _ _ _ => rfl⟩

/-- The first of the two cells is read. The cycle is cut at the fallback of the
other cell, which stays open, and each hook puts down the final value once. -/
theorem forced_once_facing :
    ∃ (log log' : History (sheetOver (List (Nat × Nat × Nat))))
      (w w' : World (sheetOver (List (Nat × Nat × Nat)))) (issued : List (WorkUnit Nat)),
      Course minutes 0 log w issued ∧ (w.cell 0).value = .unset ∧ log.hooksOf 0 = [7, 8] ∧
      w.env = [] ∧ (w'.cell 0).value = .forced (2 : Nat) ∧ log'.ForcedOnce 0 (2 : Nat) ∧
      (w'.cell 1).value = .soft (1 : Nat) ∧ log'.Unforced 1 ∧
      (∃ new, log' = log ++ new ∧ w'.outlet 0 = new.affect minuted (w.outlet 0)) ∧
      w'.env = [(0, 7, 2), (0, 8, 2)] := by
  have hblank : Blank (S := sheetOver (List (Nat × Nat × Nat))) 0
      { env := [], schedulers := #[{}] } := ⟨by decide, rfl, rfl, fun _ => rfl⟩
  have h := ((((Course.start (k := minutes) _ hblank).setRule (0 : Nat) "a" none rfl).setRule
    (1 : Nat) "b" none rfl).addHook (0 : Nat) (7 : Nat)).addHook (0 : Nat) (8 : Nat)
  obtain ⟨-, -, -, -, ⟨new, hnew, -, houtlet⟩, hgave⟩ := h.forced_once
    (Action.begins_start (Action.probe (0 : Nat)) 0) (Evaluator.traces_run _ _ 30 _ _)
  obtain ⟨htells, hvalue, -⟩ := hgave (.ok (.ready (2 : Nat))) ⟨rfl, rfl⟩
  exact ⟨_, _, _, _, _, h, rfl, rfl, rfl, hvalue _ rfl, htells 0, rfl, htells 1,
    ⟨new, hnew, houtlet⟩, rfl⟩

end Course

end Attribution.Engine
