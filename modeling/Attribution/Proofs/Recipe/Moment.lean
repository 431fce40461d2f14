import Attribution.Proofs.Engine.Solo
import Attribution.Proofs.Recipe.Basic
/-!
# Moments

How an evaluator works through recipes, one rule for each thing that a recipe,
a unit or a barrier can come to. `Answered` says that an errand comes back with
an answer, and what holds then of the history, the world and the stack. Worlds
are told apart by their tables, cells and limits only (`World.Akin`).
-/

namespace Attribution.Engine

variable {S : Schema} {α : Type}

/-- Two worlds with the same table and the same cells. -/
structure World.Like (home : SchedulerId) (w w' : World S) : Prop where
  size : w'.schedulers.size = w.schedulers.size
  table : (w'.scheduler home).table = (w.scheduler home).table
  cell : ∀ c, w'.cell c = w.cell c

/-- Two worlds that leave the same room on the stack, too. -/
structure World.Akin (home : SchedulerId) (w w' : World S) : Prop extends w.Like home w' where
  limits : (w'.scheduler home).limits = (w.scheduler home).limits

namespace World

variable {home : SchedulerId} {w w' w'' : World S}

theorem Like.refl (w : World S) : w.Like home w :=
  ⟨rfl, rfl, fun _ => rfl⟩

theorem Like.status? (h : w.Like home w') (id : UnitId) :
    (w'.scheduler home).status? id = (w.scheduler home).status? id :=
  Scheduler.status?_eq_of_table h.table id

theorem Akin.refl (w : World S) : w.Akin home w :=
  ⟨.refl w, rfl⟩

theorem Akin.trans (h : w.Akin home w') (h' : w'.Akin home w'') : w.Akin home w'' :=
  ⟨⟨h'.size.trans h.size, h'.table.trans h.table, fun c => (h'.cell c).trans (h.cell c)⟩,
    h'.limits.trans h.limits⟩

theorem Akin.settle (h : w.Akin home w') (u : WorkUnit S.Rule) (status : Status) :
    (w.modifyScheduler home fun s => s.settle u status).Akin home
      (w'.modifyScheduler home fun s => s.settle u status) := by
  have he := Scheduler.entries_eq_of_table h.table
  have hp := Scheduler.phases_eq_of_table h.table
  refine ⟨⟨by simp [h.size], ?_, h.cell⟩, ?_⟩
  · rw [scheduler_modifyScheduler, scheduler_modifyScheduler, h.size]
    split
    · simp only [Scheduler.table, Scheduler.settle, he, hp]
    · exact h.table
  · rw [scheduler_modifyScheduler, scheduler_modifyScheduler, h.size]
    split
    · exact h.limits
    · exact h.limits

theorem akin_setValue (w : World S) {c : S.Key} (v v' : CellValue (S.Val c)) :
    (w.setValue c v').Akin home ((w.setValue c v).setValue c v') := by
  refine ⟨⟨rfl, rfl, fun d => ?_⟩, rfl⟩
  by_cases h : c = d
  · subst h
    rw [cell_setValue_self, cell_setValue_self, cell_setValue_self]
  · rw [cell_setValue_ne _ _ h, cell_setValue_ne _ _ h, cell_setValue_ne _ _ h]

theorem akin_report (m : Model S) (w : World S) (origin : Option Nat) (i : SchedulerId)
    (d : Diagnostic) : w.Akin home (w.report m origin i d) := by
  have ha : w.Alike home (w.report m origin i d) := w.alike_report m origin i d
  refine ⟨⟨ha.size, ha.table, fun c => ?_⟩, ?_⟩
  · unfold report
    dsimp only
    split
    all_goals rfl
  · unfold report
    dsimp only
    split
    · rw [scheduler_modifyScheduler]
      split
      · rename_i h
        rw [h.1]
        rfl
      · rfl
    · rfl

end World

def World.announcing (w : World S) (c : S.Key) (v : S.Val c) : History S :=
  .wrote c (.forced v) :: (w.cell c).hooks.map fun h => .called c h v

theorem World.ofCell_of_mem_announcing {w : World S} {c : S.Key} {v : S.Val c} {o : Occurrence S}
    (h : o ∈ w.announcing c v) : o.OfCell := by
  rcases List.mem_cons.1 h with rfl | h
  · trivial
  · obtain ⟨hook, -, rfl⟩ := List.mem_map.1 h
    trivial

structure Moment (S : Schema) where
  log : History S
  world : World S
  frames : List (Frame S)

namespace Moment

def reader? (x : Moment S) : Option UnitId :=
  x.frames.head?.map fun f => f.unit.id

def evaluator (x : Moment S) (e : Evaluator S α) (levels : List (Level S α)) (focus : Focus S α) :
    Evaluator S α :=
  { e with frames := x.frames, levels, writes := [], focus }

/-- A read is over: what the reader is answered, and the moment after it. -/
inductive Finishes (home : SchedulerId) (x : Moment S) (c : S.Key) :
    Attempt → Probe (S.Val c) → Moment S → Prop where
  | held {outcome : Attempt} {p : Probe (S.Val c)} (ho : outcome ≠ .failing)
    (hf : outcome = .fail → (x.world.cell c).value = .forced p.value)
    (h : (x.world.cell c).value.value? = some p.value) :
    Finishes home x c outcome p { x with log := x.log ++ [.read x.reader? c p.value] }
  | failing {p : Probe (S.Val c)} (hp : p.value = S.sentinel c) :
    Finishes home x c .failing p { x with log := x.log ++ [.read x.reader? c p.value] }
  | fellBack {outcome : Attempt} {p : Probe (S.Val c)} {w : World S}
    (ho : outcome = .provisional ∨ outcome = .cycle) (h : (x.world.cell c).value = .unset)
    (hp : p.value = S.fallback c)
    (hw : (x.world.setValue c (.soft (S.fallback c))).Akin home w) :
    Finishes home x c outcome p
      ⟨x.log ++ [.wrote c (.soft (S.fallback c)), .read x.reader? c p.value], w, x.frames⟩
  | lost {p : Probe (S.Val c)} {w : World S} (h : (x.world.cell c).value.isForced = false)
    (hp : p.value = S.sentinel c) (hw : (x.world.setValue c (.forced (S.sentinel c))).Akin home w) :
    Finishes home x c .fail p
      ⟨x.log ++ [.read x.reader? c p.value] ++ x.world.announcing c (S.sentinel c), w, x.frames⟩

theorem Finishes.log_eq {home : SchedulerId} {x y : Moment S} {c : S.Key} {outcome : Attempt}
    {p : Probe (S.Val c)} (h : x.Finishes home c outcome p y) :
    ∃ before after, y.log = x.log ++ (before ++ .read x.reader? c p.value :: after) ∧
      (∀ o ∈ before, o.OfCell) ∧ ∀ o ∈ after, o.OfCell := by
  cases h with
  | held | failing => exact ⟨[], [], rfl, List.forall_mem_nil _, List.forall_mem_nil _⟩
  | fellBack =>
    exact ⟨[.wrote c (.soft (S.fallback c))], [], rfl, by simp [Occurrence.OfCell],
      List.forall_mem_nil _⟩
  | lost =>
    exact ⟨[], x.world.announcing c (S.sentinel c), by simp, List.forall_mem_nil _,
      fun o ho => World.ofCell_of_mem_announcing ho⟩

end Moment

/-- What an evaluator may be about: to enter a unit, to get past the units that
stand before it, or to run the body of the topmost unit. -/
inductive Errand (S : Schema) where
  | unit (u : WorkUnit S.Rule)
  | past (u : WorkUnit S.Rule) (phase : Phase)
  | body (a : Action S (Except Error Unit))

/-- The evaluator that goes about an errand, for whoever waits at the levels. -/
def Errand.start (x : Moment S) (e : Evaluator S α) (levels : List (Level S α)) :
    Errand S → Evaluator S α
  | .unit u => x.evaluator e levels (.enter u)
  | .past u phase => x.evaluator e levels (.barrier u phase)
  | .body a => x.evaluator e (.running :: levels) (.act (.body a))

/-- The errand is answered, and `Q` holds of the answer and of the moment. -/
def Answered (m : Model S) (home : SchedulerId) (owner : EvaluatorId) (x : Moment S)
    (t : Errand S) (Q : Except Error Attempt → Moment S → Prop) : Prop :=
  ∀ ⦃α : Type⦄ (e : Evaluator S α) (levels : List (Level S α))
    (P : History S → World S → Evaluator S α → Prop), e.id = owner → e.home = home →
    (∀ r y, Q r y → Comes m P y.log y.world (y.evaluator e levels (.answer r))) →
    Comes m P x.log x.world (t.start x e levels)

variable {m : Model S} {home : SchedulerId} {owner : EvaluatorId} {x : Moment S}
  {Q Q' : Except Error Attempt → Moment S → Prop}

theorem Answered.mono {t : Errand S} (h : Answered m home owner x t Q)
    (hQ : ∀ r y, Q r y → Q' r y) : Answered m home owner x t Q' :=
  fun _ e levels P hid hhome hP => h e levels P hid hhome fun r y hr => hP r y (hQ r y hr)

/-! ## Final values -/

private theorem Comes.notify {P : History S → World S → Evaluator S α → Prop} {log : History S}
    {w : World S} {e : Evaluator S α} (hquiet : ∀ c h v env, (m.react c h v env).2 = none)
    (home : SchedulerId) {c : S.Key} {v : S.Val c} (hooks : List S.Hook)
    (hw : e.writes = hooks.map fun h => .notify c h v)
    (h : ∀ w', w.Akin home w' →
      Comes m P (log ++ hooks.map fun h => .called c h v) w' { e with writes := [] }) :
    Comes m P log w e := by
  induction hooks generalizing log w e with
  | nil =>
    have he : e = { e with writes := [] } := by rw [← show e.writes = [] from hw]
    have hlog : log = log ++ [] := (List.append_nil log).symm
    rw [he, hlog]
    exact h w (.refl w)
  | cons hook rest ih =>
    refine .next [.called c hook v] { w with env := (m.react c hook v w.env).1 }
      { e with writes := rest.map fun h => .notify c h v } (fun pick => ?_) ?_ ?_
    · rw [Evaluator.step, hw]
      simp only [List.map_cons, Evaluator.write, hquiet]
    · rw [Evaluator.occurrences, hw]
      rfl
    · refine ih rfl fun w' hw' => ?_
      rw [List.append_assoc]
      exact h w' ⟨⟨hw'.size, hw'.table, hw'.cell⟩, hw'.limits⟩

theorem Comes.announce {P : History S → World S → Evaluator S α → Prop} {log : History S}
    {w : World S} {e : Evaluator S α} (hquiet : ∀ c h v env, (m.react c h v env).2 = none)
    (home : SchedulerId) {c : S.Key} {v : S.Val c} (hw : e.writes = [.force c v])
    (h : ∀ w', (w.setValue c (.forced v)).Akin home w' →
      Comes m P (log ++ w.announcing c v) w' { e with writes := [] }) : Comes m P log w e := by
  refine .next [.wrote c (.forced v)]
    ((w.setValue c (.forced v)).note e.worker (.forced (S.name c) (w.cell c).hooks.length))
    { e with writes := (w.cell c).hooks.map fun h => .notify c h v } (fun pick => ?_) ?_ ?_
  · rw [Evaluator.step, hw]
    simp only [Evaluator.write, List.append_nil]
  · rw [Evaluator.occurrences, hw]
  · refine .notify hquiet home (w.cell c).hooks rfl fun w' hw' => ?_
    rw [List.append_assoc]
    exact h w' ⟨⟨hw'.size, hw'.table, hw'.cell⟩, hw'.limits⟩

/-! ## Reads -/

section Probe

variable {c : S.Key} {next : Except Error (Probe (S.Val c)) → Action S (Except Error Unit)}

theorem answered_forced {v : S.Val c} (hv : (x.world.cell c).value = .forced v)
    (h : Answered m home owner { x with log := x.log ++ [.read x.reader? c v] }
      (.body (next (.ok (.ready v)))) Q) : Answered m home owner x (.body (.ask (.probe c) next)) Q := by
  intro α e levels P hid hhome hQ
  refine .next [.read x.reader? c v] x.world
    (x.evaluator e (.running :: levels) (.act (.body (next (.ok (.ready v)))))) (fun pick => ?_) ?_
    (h e levels P hid hhome hQ)
  · simp only [Errand.start, Moment.evaluator, Evaluator.step, Evaluator.serve, Evaluator.startProbe,
      Evaluator.resume, hv]
  · simp only [Errand.start, Moment.evaluator, Evaluator.occurrences, Evaluator.serving, hv]
    rfl

theorem answered_missing (hv : (x.world.cell c).value = .unset)
    (hu : (x.world.cell c).resolver = none)
    (h : Answered m home owner x (.body (next (.error (.missingResolver (S.name c))))) Q) :
    Answered m home owner x (.body (.ask (.probe c) next)) Q := by
  intro α e levels P hid hhome hQ
  refine .silent x.world (x.evaluator e (.running :: levels)
    (.act (.body (next (.error (.missingResolver (S.name c))))))) (fun pick => ?_) ?_
    (h e levels P hid hhome hQ)
  · simp only [Errand.start, Moment.evaluator, Evaluator.step, Evaluator.serve, Evaluator.startProbe,
      Evaluator.resume, hv, hu]
  · simp only [Errand.start, Moment.evaluator, Evaluator.occurrences, Evaluator.serving, hv, hu]

theorem comes_finish {P : History S → World S → Evaluator S α → Prop} {e : Evaluator S α}
    {levels : List (Level S α)} {label : String} {code : Except Error (Probe (S.Val c)) → Code S α}
    {outcome : Attempt} (hquiet : ∀ c h v env, (m.react c h v env).2 = none)
    (hset : outcome = .success → (x.world.cell c).value ≠ .unset)
    (h : ∀ p y, x.Finishes home c outcome p y →
      Comes m P y.log y.world (y.evaluator e levels (.act (code (.ok p))))) :
    Comes m P x.log x.world
      (x.evaluator e (.probed c label code :: levels) (.answer (.ok outcome))) := by
  let d := x.evaluator e levels (.answer (.ok outcome))
  refine .next (d.finishing x.world c outcome) (d.finishProbe x.world c label code outcome).1
    (d.finishProbe x.world c label code outcome).2 (fun pick => rfl) rfl ?_
  -- A sentinel is written in further steps.
  have hlost : outcome = .fail → (x.world.cell c).value.isForced = false →
      Comes m P (x.log ++ [.read x.reader? c (S.sentinel c)]) x.world
        { x.evaluator e levels (.act (code (.ok (.failed (S.sentinel c))))) with
          writes := [.force c (S.sentinel c)] } := by
    rintro rfl hv
    exact .announce hquiet home rfl fun w' hw' => h _ ⟨_, w', x.frames⟩ (.lost hv rfl hw')
  unfold Evaluator.finishProbe Evaluator.finishing
  cases outcome <;> cases hv : (x.world.cell c).value
  case success.unset => exact absurd hv (hset rfl)
  case fail.unset => exact hlost rfl (by rw [hv]; rfl)
  case fail.soft => exact hlost rfl (by rw [hv]; rfl)
  case fail.forced v => exact h (.failed v) _ (.held nofun (fun _ => hv) (by rw [hv]; rfl))
  case provisional.unset =>
    exact h (.cyclic (S.fallback c)) ⟨_, _, x.frames⟩
      (.fellBack (.inl rfl) hv rfl ⟨⟨rfl, rfl, fun _ => rfl⟩, rfl⟩)
  case cycle.unset =>
    exact h (.cyclic (S.fallback c)) ⟨_, _, x.frames⟩
      (.fellBack (.inr rfl) hv rfl ⟨⟨rfl, rfl, fun _ => rfl⟩, rfl⟩)
  case failing.unset => exact h (.failed (S.sentinel c)) _ (.failing rfl)
  case failing.soft => exact h (.failed (S.sentinel c)) _ (.failing rfl)
  case failing.forced => exact h (.failed (S.sentinel c)) _ (.failing rfl)
  case cycle.soft v => exact h (.cyclic v) _ (.held nofun nofun (by rw [hv]; rfl))
  all_goals
    rename_i v
    exact h (.ready v) _ (.held nofun nofun (by rw [hv]; rfl))

theorem answered_probe {u : WorkUnit S.Rule}
    (hquiet : ∀ c h v env, (m.react c h v env).2 = none)
    (hu : (x.world.cell c).resolver = some u) (hv : (x.world.cell c).value.isForced = false)
    (h : Answered m home owner x (.unit u) fun r y => match r with
      | .error e => Answered m home owner y (.body (next (.error e))) Q
      | .ok outcome => (outcome = .success → (y.world.cell c).value ≠ .unset) ∧
        ∀ p z, y.Finishes home c outcome p z → Answered m home owner z (.body (next (.ok p))) Q) :
    Answered m home owner x (.body (.ask (.probe c) next)) Q := by
  intro α e levels P hid hhome hQ
  refine .silent x.world (x.evaluator e (.probed c u.label (fun r => .body (next r)) :: .running :: levels)
    (.enter u)) (fun pick => ?_) ?_
    (h e (.probed c u.label (fun r => .body (next r)) :: .running :: levels) P hid hhome ?_)
  · cases hval : (x.world.cell c).value with
    | forced v =>
      rw [hval] at hv
      cases hv
    | unset | soft v =>
      simp only [Errand.start, Moment.evaluator, Evaluator.step, Evaluator.serve,
        Evaluator.startProbe, hval, hu]
  · cases hval : (x.world.cell c).value with
    | forced v =>
      rw [hval] at hv
      cases hv
    | unset | soft v =>
      simp only [Errand.start, Moment.evaluator, Evaluator.occurrences, Evaluator.serving, hval, hu]
  · intro r y hr
    cases r with
    | error err => exact .silent y.world _ (fun pick => rfl) rfl (hr e levels P hid hhome hQ)
    | ok outcome =>
      obtain ⟨hset, hr⟩ := hr
      exact comes_finish hquiet hset fun p z hz => hr p z hz e levels P hid hhome hQ

end Probe

/-! ## The end of a body -/

section Body

variable {f : Frame S} {rest : List (Frame S)}

theorem answered_fail {d : Diagnostic} {next : Unit → Action S (Except Error Unit)}
    (hf : x.frames = f :: rest)
    (hdoomed : f.doomed = true → ∀ w, x.world.Akin home w →
      Answered m home owner ⟨x.log, w, f :: rest⟩ (.body (next ())) Q)
    (hnew : f.doomed = false → ∀ w, (x.world.modifyScheduler home fun s =>
        s.setStatus f.unit.id .runningWillFail).Akin home w →
      Answered m home owner ⟨x.log ++ [.reported d], w, { f with doomed := true } :: rest⟩
        (.body (next ())) Q) :
    Answered m home owner x (.body (.ask (.fail d) next)) Q := by
  intro α e levels P hid hhome hQ
  subst hhome
  cases hd : f.doomed with
  | true =>
    have hlike : x.world.Akin e.home
        (x.world.note e.worker (.suppressed f.unit.label d.message)) :=
      ⟨⟨rfl, rfl, fun _ => rfl⟩, rfl⟩
    refine .silent _ _ (fun pick => ?_) ?_ (hdoomed hd _ hlike e levels P hid rfl hQ)
    · simp only [Errand.start, Moment.evaluator, Evaluator.step, Evaluator.serve, Evaluator.fail,
        Evaluator.resume, hf, hd, if_true]
    · simp only [Errand.start, Moment.evaluator, Evaluator.occurrences, Evaluator.serving, hf, hd,
        if_true]
  | false =>
    refine .next [.reported d] _ _ (fun pick => ?_) ?_
      (hnew hd _ (World.akin_report m _ e.worker e.home d) e levels P hid rfl hQ)
    · simp only [Errand.start, Moment.evaluator, Evaluator.step, Evaluator.serve, Evaluator.fail,
        Evaluator.resume, hf, hd]
      rfl
    · simp only [Errand.start, Moment.evaluator, Evaluator.occurrences, Evaluator.serving, hf, hd,
        Bool.false_eq_true, if_false]

private theorem comes_settle {P : History S → World S → Evaluator S α → Prop}
    {e : Evaluator S α} {levels : List (Level S α)} {log : History S} {w : World S}
    {result : Except Error Unit} (hhome : e.home = home)
    (h : ∀ w', (w.modifyScheduler home fun s => s.settle f.unit (f.outcome result).1).Akin home w' →
      Comes m P (log ++ [.ended f result]) w'
        { e with frames := rest, levels, writes := []
                 focus := .answer (result.map fun _ => (f.outcome result).2) }) :
    Comes m P log w { e with frames := f :: rest, levels := .running :: levels, writes := []
                             focus := .closing result } := by
  subst hhome
  exact .next [.ended f result] _ _ (fun pick => rfl) rfl (h _ ⟨⟨rfl, rfl, fun _ => rfl⟩, rfl⟩)

theorem answered_stop {err : Error} (hf : x.frames = f :: rest)
    (h : ∀ w, (x.world.modifyScheduler home fun s => s.settle f.unit .fail).Akin home w →
      Q (.error err) ⟨x.log ++ [.ended f (.error err)], w, rest⟩) :
    Answered m home owner x (.body (.pure (.error err))) Q := by
  intro α e levels P hid hhome hQ
  refine .silent x.world { e with
    frames := f :: rest, levels := .running :: levels, writes := []
    focus := .closing (.error err) } (fun pick => ?_) rfl
    (comes_settle hhome fun w hw => hQ _ ⟨_, w, rest⟩ (h w hw))
  simp only [Errand.start, Moment.evaluator, Evaluator.step]
  unfold Evaluator.close
  simp only [hf]

theorem answered_done (hquiet : ∀ c h v env, (m.react c h v env).2 = none) {c : S.Key}
    {v : S.Val c} (hf : x.frames = f :: rest) (hfills : f.fills = [])
    (hu : (x.world.cell c).resolver = some f.unit)
    (hsuccess : f.doomed = false → f.head = none →
      ∀ w, ((x.world.setValue c (.forced v)).modifyScheduler home fun s =>
        s.settle f.unit .success).Akin home w →
      Q (.ok .success)
        ⟨x.log ++ x.world.announcing c v ++ [.ended { f with fills := [c] } (.ok ())], w, rest⟩)
    (hprovisional : f.doomed = false → f.head ≠ none →
      ∀ w, ((x.world.setValue c (.soft v)).modifyScheduler home fun s =>
        s.settle f.unit .new).Akin home w →
      Q (.ok .provisional)
        ⟨x.log ++ [.wrote c (.soft v)] ++ [.ended { f with fills := [c] } (.ok ())], w, rest⟩)
    (hfail : f.doomed = true →
      ∀ w, ((x.world.setValue c (.forced (S.sentinel c))).modifyScheduler home fun s =>
        s.settle f.unit .fail).Akin home w →
      Q (.ok .fail) ⟨x.log ++ [.wrote c (.soft v)] ++ x.world.announcing c (S.sentinel c) ++
        [.ended { f with fills := [c] } (.ok ())], w, rest⟩) :
    Answered m home owner x (.body ((Recipe.done v).body c)) Q := by
  intro α e levels P hid hhome hQ
  obtain ⟨log, w, frames⟩ := x
  obtain ⟨u, head, fills, doomed⟩ := f
  obtain rfl : frames = _ := hf
  obtain rfl : fills = [] := hfills
  -- The evaluator that has filled the cell, and the one whose body has ended.
  let g : Frame S := ⟨u, head, [c], doomed⟩
  let filled (writes : List (Write S)) : Evaluator S α :=
    { e with frames := g :: rest, levels := .running :: levels, writes
             focus := .act (.body (.pure (.ok ()))) }
  let ending (writes : List (Write S)) : Evaluator S α :=
    { e with frames := g :: rest, levels := .running :: levels, writes, focus := .closing (.ok ()) }
  let d := Moment.evaluator ⟨log, w, ⟨u, head, [], doomed⟩ :: rest⟩ e (.running :: levels)
    (.act (.body ((Recipe.done v).body c)))
  have hres : (d.view w).resolves c = true := by
    unfold View.resolves View.current?
    rw [show ((d.view w).world.cell c).resolver = some u from hu]
    exact beq_self_eq_true u.id
  refine .silent w (d.resume (.body (.ask (.fill c v) fun _ => .pure (.ok ()))))
    (fun pick => ?_) rfl ?_
  · change some (w, d.resume (.body (Action.bind (if (d.view w).resolves c = true then
      Action.request (.fill c v) else .pure ()) fun _ => .pure (.ok ())))) = _
    rw [if_pos hres]
    rfl
  cases doomed with
  | true =>
    have hhooks : (w.soften e.worker c v).announcing c (S.sentinel c) =
        w.announcing c (S.sentinel c) := by
      change World.announcing (w.setValue c (.soft v)) c _ = _
      rw [World.announcing, World.cell_setValue_self]
      rfl
    have hfill : (head.isSome || true) = true := Bool.or_true _
    refine .next [.wrote c (.soft v)] (w.soften e.worker c v) (filled []) (fun pick => ?_) ?_
      (.silent _ (ending [.force c (S.sentinel c)]) (fun pick => rfl) rfl
        (.announce hquiet home rfl fun w' hw' => comes_settle hhome fun w'' hw'' => ?_))
    · exact congrArg some (if_pos hfill)
    · exact if_pos hfill
    · rw [hhooks]
      refine hQ _ ⟨_, w'', rest⟩ (hfail rfl w'' (.trans ?_ hw''))
      have hw : ((w.setValue c (.soft v)).setValue c (.forced (S.sentinel c))).Akin home w' :=
        ⟨⟨hw'.size, hw'.table, hw'.cell⟩, hw'.limits⟩
      exact ((w.akin_setValue (.soft v) _).trans hw).settle u .fail
  | false =>
    cases head with
    | none =>
      refine .silent w (filled [.force c v]) (fun pick => rfl) rfl
        (.announce hquiet home rfl fun w' hw' => .silent w' (ending []) (fun pick => rfl) rfl
          (comes_settle hhome fun w'' hw'' => ?_))
      exact hQ _ ⟨_, w'', rest⟩ (hsuccess rfl rfl w'' ((hw'.settle u .success).trans hw''))
    | some head =>
      -- A value that is soft already stays as it is.
      have hsoft : ((w.soften e.worker c v).cell c).value = .soft v := by
        change ((w.setValue c (.soft v)).cell c).value = _
        rw [World.cell_setValue_self]
      have hlike : (w.setValue c (.soft v)).Akin home ((w.soften e.worker c v).modifyCell c
          fun cell => { cell with value := cell.value.softened }) := by
        refine ⟨⟨rfl, rfl, fun b => ?_⟩, rfl⟩
        by_cases hb : c = b
        · subst hb
          rw [World.cell_modifyCell_self, hsoft]
          change { (w.setValue c (.soft v)).cell c with value := .soft v } = _
          rw [World.cell_setValue_self]
        · rw [World.cell_modifyCell_ne _ _ hb]
          rfl
      refine .next [.wrote c (.soft v)] (w.soften e.worker c v) (filled []) (fun pick => rfl) rfl
        (.silent _ (ending []) (fun pick => rfl) ?_ (comes_settle hhome fun w' hw' => ?_))
      · change World.demoting _ [c] = []
        simp only [World.demoting, hsoft, List.append_nil]
      · exact hQ _ ⟨_, w', rest⟩
          (hprovisional rfl nofun w' ((hlike.settle u .new).trans hw'))

end Body

/-! ## Entering units -/

section Enter

variable {u : WorkUnit S.Rule}

theorem answered_ended {status : Status} {outcome : Attempt}
    (hso : (status = .success ∧ outcome = .success) ∨ (status = .fail ∧ outcome = .fail))
    (hoff : Frame.indexOf? u.id x.frames = none)
    (hs : (x.world.scheduler home).status? u.id = some status) (hQ : Q (.ok outcome) x) :
    Answered m home owner x (.unit u) Q := by
  intro α e levels P hid hhome hP
  subst hhome
  refine .silent x.world (x.evaluator e levels (.answer (.ok outcome))) (fun pick => ?_) ?_
    (hP _ x hQ)
  all_goals rcases hso with ⟨rfl, rfl⟩ | ⟨rfl, rfl⟩
  all_goals
    simp only [Errand.start, Moment.evaluator, Evaluator.step, Evaluator.enter,
      Evaluator.occurrences, Evaluator.entering, Evaluator.admission, hoff, hs, Evaluator.reply]

theorem answered_failing {index : Nat} (hon : Frame.indexOf? u.id x.frames = some index)
    (hs : (x.world.scheduler home).status? u.id = some .runningWillFail)
    (hQ : Q (.ok .failing) x) : Answered m home owner x (.unit u) Q := by
  intro α e levels P hid hhome hP
  subst hhome
  refine .silent x.world (x.evaluator e levels (.answer (.ok .failing))) (fun pick => ?_) ?_
    (hP _ x hQ)
  all_goals
    simp only [Errand.start, Moment.evaluator, Evaluator.step, Evaluator.enter,
      Evaluator.occurrences, Evaluator.entering, Evaluator.admission, hon, hs, Evaluator.reply,
      if_true]

theorem answered_cycle {index : Nat} (hon : Frame.indexOf? u.id x.frames = some index)
    (hs : (x.world.scheduler home).status? u.id ≠ some .runningWillFail)
    (hQ : ∀ w, (x.world.modifyScheduler home fun s =>
        s.setStatus u.id .runningRecursive).Akin home w →
      Q (.ok .cycle) ⟨x.log ++ [.reentered u.id], w, Frame.joinCycleAbove index x.frames⟩) :
    Answered m home owner x (.unit u) Q := by
  intro α e levels P hid hhome hP
  subst hhome
  refine .next [.reentered u.id] _ _ (fun pick => ?_) ?_ (hP _ ⟨_, _, _⟩ (hQ
    ((x.world.modifyScheduler e.home fun s => s.setStatus u.id .runningRecursive).note e.worker
      (.cycle u.label x.frames.length)) ⟨⟨rfl, rfl, fun _ => rfl⟩, rfl⟩))
  all_goals
    simp only [Errand.start, Moment.evaluator, Evaluator.step, Evaluator.enter,
      Evaluator.occurrences, Evaluator.entering, Evaluator.admission, hon, hs, Evaluator.reply,
      if_false]

theorem answered_tooDeep (h : Clear (x.world.scheduler home) x.frames u)
    (hdeep : (x.world.scheduler home).limits.maxDepth ≤ x.frames.length)
    (hQ : Q (.error (.depthExceeded u.label (x.world.scheduler home).limits.maxDepth)) x) :
    Answered m home owner x (.unit u) Q := by
  intro α e levels P hid hhome hP
  subst hhome
  refine .silent x.world _ (fun pick => ?_) ?_ (hP _ x hQ)
  all_goals
    simp only [Errand.start, Moment.evaluator, Evaluator.step, Evaluator.enter,
      Evaluator.occurrences, Evaluator.entering, Evaluator.admission, h.off, h.new, h.first, hdeep,
      Evaluator.reply, if_true]

theorem answered_granted (h : Clear (x.world.scheduler home) x.frames u)
    (hroom : x.frames.length < (x.world.scheduler home).limits.maxDepth)
    (hbody : ∀ w, (x.world.modifyScheduler home fun s => s.claim u.id owner).Akin home w →
      Answered m home owner ⟨x.log ++ [.started u.id], w, { unit := u } :: x.frames⟩
        (.body (m.body u.rule)) Q) : Answered m home owner x (.unit u) Q := by
  intro α e levels P hid hhome hP
  subst hhome hid
  refine .next [.started u.id] _ _ (fun pick => ?_) ?_ (hbody
    ((x.world.modifyScheduler e.home fun s => s.claim u.id e.id).note e.worker
      (.started u.label u.id)) ⟨⟨rfl, rfl, fun _ => rfl⟩, rfl⟩ e levels P rfl rfl hP)
  all_goals
    simp only [Errand.start, Moment.evaluator, Evaluator.step, Evaluator.enter,
      Evaluator.occurrences, Evaluator.entering, Evaluator.admission, h.off, h.new, h.first,
      Nat.not_le.2 hroom, if_false]

/-! ## Barriers -/

theorem answered_behind {phase : Phase} (hoff : Frame.indexOf? u.id x.frames = none)
    (hnew : (x.world.scheduler home).status? u.id = some .new)
    (hbehind : u.phase.filter (x.world.scheduler home).hasEarlier = some phase)
    (h : Answered m home owner x (.past u phase) Q) : Answered m home owner x (.unit u) Q := by
  intro α e levels P hid hhome hP
  subst hhome
  refine .silent x.world _ (fun pick => ?_) ?_ (h e levels P hid rfl hP)
  all_goals
    simp only [Errand.start, Moment.evaluator, Evaluator.step, Evaluator.enter,
      Evaluator.occurrences, Evaluator.entering, Evaluator.admission, hoff, hnew, hbehind]

theorem answered_past {phase : Phase} (hnone : (x.world.scheduler home).earlierUnits phase = [])
    (h : Answered m home owner x (.unit u) Q) : Answered m home owner x (.past u phase) Q := by
  intro α e levels P hid hhome hP
  subst hhome
  refine .silent x.world _ (fun pick => ?_) rfl (h e levels P hid rfl hP)
  simp only [Errand.start, Moment.evaluator, Evaluator.step, Evaluator.passBarrier, hnone]

/-- A unit that stands before is on the stack, so it cannot be run. -/
theorem answered_outOfOrder {phase : Phase} {b : Phase × WorkUnit S.Rule}
    (hb : b ∈ (x.world.scheduler home).earlierUnits phase)
    (hon : Frame.indexOf? b.2.id x.frames ≠ none) (hQ : ∀ err, Q (.error err) x) :
    Answered m home owner x (.past u phase) Q := by
  intro α e levels P hid hhome hP
  subst hhome
  obtain ⟨a, ha⟩ : ∃ a, (((x.world.scheduler e.home).earlierUnits phase).find? fun b =>
      (Frame.indexOf? b.2.id x.frames).isSome) = some a :=
    Option.isSome_iff_exists.1 (List.find?_isSome.2 ⟨b, hb, Option.isSome_iff_ne_none.2 hon⟩)
  have hsome : (x.world.scheduler e.home).earlierUnits phase ≠ [] := List.ne_nil_of_mem hb
  refine .silent x.world _ (fun pick => ?_) rfl
    (hP _ x (hQ (.phaseOrder u.label phase a.2.label a.1)))
  simp only [Errand.start, Moment.evaluator, Evaluator.step, Evaluator.passBarrier, ha,
    Evaluator.reply]

/-- A unit that stands before is run, and the rest are looked at again. -/
theorem answered_help {phase : Phase} (hsome : (x.world.scheduler home).earlierUnits phase ≠ [])
    (hoff : ∀ b ∈ (x.world.scheduler home).earlierUnits phase,
      Frame.indexOf? b.2.id x.frames = none)
    (hnew : ∀ b ∈ (x.world.scheduler home).earlierUnits phase,
      (x.world.scheduler home).status? b.2.id = some .new)
    (h : ∀ b ∈ (x.world.scheduler home).earlierUnits phase, ∀ w, x.world.Akin home w →
      Answered m home owner ⟨x.log, w, x.frames⟩ (.unit b.2) fun r y => match r with
        | .error err => Q (.error err) y
        | .ok .success | .ok .fail => Answered m home owner y (.past u phase) Q
        | .ok _ => ∀ err, Q (.error err) y) :
    Answered m home owner x (.past u phase) Q := by
  intro α e levels P hid hhome hP
  subst hhome
  have hfind : (((x.world.scheduler e.home).earlierUnits phase).find? fun b =>
      (Frame.indexOf? b.2.id x.frames).isSome) = none :=
    List.find?_eq_none.2 fun b hb => by simp [hoff b hb]
  have hpos := List.length_pos_iff.2 hsome
  refine .of_forall fun pick => ?_
  obtain ⟨b, hget⟩ : ∃ b, ((x.world.scheduler e.home).earlierUnits phase)[
      pick % ((x.world.scheduler e.home).earlierUnits phase).length]? = some b :=
    ⟨_, List.getElem?_eq_getElem (Nat.mod_lt pick hpos)⟩
  have hocc : ((Errand.past u phase).start x e levels).occurrences x.world = [] := rfl
  refine ⟨(x.world.note e.worker (.helping u.label b.2.label b.1),
    x.evaluator e (.helping u phase b.2 b.1 :: levels) (.enter b.2)), ?_, ?_⟩
  · dsimp only [Errand.start, Moment.evaluator, Evaluator.step, Evaluator.passBarrier]
    simp only [hfind, List.filter_eq_self.2 fun b hb => decide_eq_true (hnew b hb), hget]
  · rw [hocc, List.append_nil]
    refine h b (List.mem_of_getElem? hget)
      (x.world.note e.worker (.helping u.label b.2.label b.1)) ⟨⟨rfl, rfl, fun _ => rfl⟩, rfl⟩ e (.helping u phase b.2 b.1 :: levels) P hid rfl
      fun r y hr => ?_
    cases r with
    | error err => exact .silent y.world _ (fun pick => rfl) rfl (hP _ y hr)
    | ok outcome =>
      cases outcome with
      | success | fail =>
        exact .silent y.world _ (fun pick => rfl) rfl (hr e levels P hid rfl hP)
      | provisional | cycle | failing =>
        exact .silent y.world _ (fun pick => rfl) rfl
          (hP _ y (hr (.phaseOrder u.label phase b.2.label b.1)))

end Enter

/-! ## The caller's reads -/

/-- The evaluator has given a result, and `R` holds of it and of the moment. -/
def Moment.Returned {β : Type} (e : Evaluator S β) (R : β → Moment S → Prop) (log : History S)
    (w : World S) (e' : Evaluator S β) : Prop :=
  ∃ r frames, R r ⟨log, w, frames⟩ ∧ e' = { e with frames, focus := .done r }

theorem comes_get {c : S.Key} {e : Evaluator S (Except Error (Probe (S.Val c)))}
    {R : Except Error (Probe (S.Val c)) → Moment S → Prop}
    (hquiet : ∀ c h v env, (m.react c h v env).2 = none) (hid : e.id = owner) (he : e.Idle home)
    (hfocus : e.focus = .act (.top (Action.probe c))) (hx : x.frames = [])
    (hbare : (x.world.cell c).resolver = none → (x.world.cell c).value = .unset ∧
      R (.error (.missingResolver (S.name c))) x)
    (hforced : ∀ v, (x.world.cell c).value = .forced v →
      R (.ok (.ready v)) { x with log := x.log ++ [.read none c v] })
    (hask : ∀ u, (x.world.cell c).resolver = some u → (x.world.cell c).value.isForced = false →
      Answered m home owner x (.unit u) fun r y => match r with
        | .error err => R (.error err) y
        | .ok outcome => (outcome = .success → (y.world.cell c).value ≠ .unset) ∧
          ∀ p z, y.Finishes home c outcome p z → R (.ok p) z) :
    Comes m (Moment.Returned e R) x.log x.world e := by
  have hstart : e = x.evaluator e [] (.act (.top (.ask (.probe c) .pure))) := by
    rw [Moment.evaluator, hx, ← he.frames, ← he.levels, ← he.writes]
    change e = { e with focus := .act (.top (Action.probe c)) }
    rw [← hfocus]
  have hgave : ∀ r y, R r y → Comes m (Moment.Returned e R) y.log y.world
      (y.evaluator e [] (.act (.top (.pure r)))) := by
    intro r y hr
    refine .silent y.world (y.evaluator e [] (.done r)) (fun pick => rfl) rfl
      (.here ⟨r, y.frames, hr, ?_⟩)
    rw [Moment.evaluator, ← he.levels, ← he.writes]
  suffices h : Comes m (Moment.Returned e R) x.log x.world
      (x.evaluator e [] (.act (.top (.ask (.probe c) .pure)))) by
    rw [← hstart] at h
    exact h
  cases hu : (x.world.cell c).resolver with
  | none =>
    obtain ⟨hv, hR⟩ := hbare hu
    refine .silent x.world _ (fun pick => ?_) ?_ (hgave _ x hR)
    · simp only [Moment.evaluator, Evaluator.step, Evaluator.serve, Evaluator.startProbe,
        Evaluator.resume, hv, hu]
    · simp only [Moment.evaluator, Evaluator.occurrences, Evaluator.serving, hv, hu]
  | some u =>
    cases hv : (x.world.cell c).value with
    | forced v =>
      refine .next [.read none c v] x.world _ (fun pick => ?_) ?_
        (hgave _ { x with log := x.log ++ [.read none c v] } (hforced v hv))
      · simp only [Moment.evaluator, Evaluator.step, Evaluator.serve, Evaluator.startProbe,
          Evaluator.resume, hv]
      · simp only [Moment.evaluator, Evaluator.occurrences, Evaluator.serving, Evaluator.reader?,
          hv, hx]
        rfl
    | unset | soft v =>
      refine .silent x.world (x.evaluator e [.probed c u.label fun r => .top (.pure r)] (.enter u))
        (fun pick => ?_) ?_ (hask u hu (by rw [hv]; rfl) e _ _ hid he.home fun r y hr => ?_)
      · simp only [Moment.evaluator, Evaluator.step, Evaluator.serve, Evaluator.startProbe, hv, hu]
      · simp only [Moment.evaluator, Evaluator.occurrences, Evaluator.serving, hv, hu]
      · cases r with
        | error err => exact .silent y.world _ (fun pick => rfl) rfl (hgave _ y hr)
        | ok outcome =>
          obtain ⟨hset, hr⟩ := hr
          exact comes_finish hquiet hset fun p z hz => hgave _ z (hr p z hz)

end Attribution.Engine
