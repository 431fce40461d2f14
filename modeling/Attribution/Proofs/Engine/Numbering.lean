import Attribution.Engine.Run
import Attribution.Proofs.Engine.Stack
import Attribution.Proofs.Engine.Sheet
import Mathlib.Tactic.ByContra
/-!
# Units are known by their numbers

Evaluators of several sessions side by side. A scheduler looks up a unit by its number and does
not ask whose unit it is. A unit of another session is therefore unknown only if its number is
too large for the table (`Crowd.known_by_number`); otherwise it is taken for the unit that has
the same number here, and the two schedulers mix (`schedulers_mix`).
-/

namespace Attribution.Engine

variable {S : Schema} {α : Type}

/-! ## Tables do not shrink -/

namespace World

def Extends (w w' : World S) : Prop :=
  ∀ i, (w.scheduler i).entries.size ≤ (w'.scheduler i).entries.size

variable {w w' : World S}

theorem Extends.refl (w : World S) : w.Extends w :=
  fun _ => Nat.le_refl _

theorem Extends.trans {u v w : World S} (h : u.Extends v) (h' : v.Extends w) : u.Extends w :=
  fun i => Nat.le_trans (h i) (h' i)

theorem extends_of_eq (h : w'.schedulers = w.schedulers) : w.Extends w' := by
  intro i
  exact Nat.le_of_eq (by rw [scheduler, scheduler, h])

theorem Extends.note {origin : Option Nat} {e : Event} (h : w.Extends w') :
    w.Extends (w'.note origin e) :=
  h

theorem extends_modifyScheduler (w : World S) (i : SchedulerId)
    {f : Scheduler S.Rule → Scheduler S.Rule} (hf : ∀ s, s.entries.size ≤ (f s).entries.size) :
    w.Extends (w.modifyScheduler i f) := by
  intro j
  rw [scheduler_modifyScheduler]
  split
  · exact hf _
  · exact Nat.le_refl _

theorem extends_report (m : Model S) (w : World S) (origin : Option Nat) (i : SchedulerId)
    (d : Diagnostic) : w.Extends (w.report m origin i d) := by
  unfold report
  dsimp only
  split
  · exact extends_modifyScheduler (w.note origin _) i fun _ => Nat.le_refl _
  · exact extends_of_eq rfl

theorem extends_register (w : World S) (i : SchedulerId) (label : String) (phase : Option Phase)
    (rule : S.Rule) : w.Extends (w.register i label phase rule).1 :=
  w.extends_modifyScheduler i fun s => by simp

theorem extends_reset (w : World S) (origin : Option Nat) (c : S.Key) :
    w.Extends (w.reset origin c) := by
  unfold reset
  dsimp only
  split
  · exact extends_of_eq rfl
  · split
    · exact extends_register (w.setValue c .unset) _ _ _ _
    · exact extends_of_eq rfl

theorem extends_foldl_softened (w : World S) (cells : List S.Key) :
    w.Extends (cells.foldl (fun w c =>
      w.modifyCell c fun cell => { cell with value := cell.value.softened }) w) := by
  induction cells generalizing w with
  | nil => exact .refl w
  | cons c rest ih => exact ih (w.modifyCell c _)

end World

/-! ## Stacks hold registered numbers -/

namespace Evaluator

/-- The units on the stack have numbers that the evaluator's own scheduler has given out. -/
def Registered (w : World S) (e : Evaluator S α) : Prop :=
  ∀ f ∈ e.frames, f.unit.id < (w.scheduler e.home).entries.size

structure Passes (w : World S) (e : Evaluator S α) (w' : World S) (e' : Evaluator S α) : Prop where
  tables : w.Extends w'
  home : e'.home = e.home
  frames : ∀ f ∈ e'.frames, (∃ g ∈ e.frames, g.unit.id = f.unit.id) ∨
    f.unit.id < (w.scheduler e.home).entries.size

variable {m : Model S} {pick : Nat} {w w' : World S} {e e' : Evaluator S α}

theorem Passes.same (ht : w.Extends w') (hhome : e'.home = e.home) (hframes : e'.frames = e.frames) :
    Passes w e w' e' :=
  ⟨ht, hhome, fun f hf => .inl ⟨f, hframes ▸ hf, rfl⟩⟩

theorem Passes.silent (e' : Evaluator S α) (hhome : e'.home = e.home)
    (hframes : e'.frames = e.frames) : Passes w e w e' :=
  .same (.refl w) hhome hframes

theorem Passes.join (ht : w.Extends w') (hhome : e'.home = e.home) {index : Nat}
    (hframes : e'.frames = Frame.joinCycleAbove index e.frames) : Passes w e w' e' := by
  refine ⟨ht, hhome, fun f hf => .inl ?_⟩
  rw [hframes] at hf
  obtain ⟨g, hg, hunit, -⟩ := Frame.exists_of_mem_joinCycleAbove hf
  exact ⟨g, hg, by rw [hunit]⟩

theorem Passes.registered (h : Passes w e w' e') (he : e.Registered w) : e'.Registered w' := by
  intro f hf
  rw [h.home]
  refine Nat.lt_of_lt_of_le ?_ (h.tables e.home)
  rcases h.frames f hf with ⟨g, hg, hid⟩ | hid
  · rw [← hid]
    exact he g hg
  · exact hid

theorem passes_write (next : Write S) (rest : List (Write S)) :
    Passes w e (e.write m w next rest).1 (e.write m w next rest).2 := by
  cases next with
  | force c v => exact .same (World.extends_of_eq rfl) rfl rfl
  | notify c h v => exact .same (World.extends_of_eq rfl) rfl rfl

theorem passes_fail (code : Code S α) (d : Diagnostic) :
    Passes w e ((e.resume code).fail m w d).1 ((e.resume code).fail m w d).2 := by
  unfold fail
  split
  · exact .same (World.extends_report m w _ _ d) rfl rfl
  · next f rest hf =>
    split
    · exact .same (World.extends_of_eq rfl) rfl rfl
    · refine ⟨?_, rfl, fun g hg => .inl ?_⟩
      · have hdoom : w.Extends (w.modifyScheduler e.home fun s =>
            s.setStatus f.unit.id .runningWillFail) := w.extends_modifyScheduler _ fun s => by simp
        exact hdoom.trans (World.extends_report m _ _ _ d)
      · change e.frames = f :: rest at hf
        rw [hf]
        rcases List.mem_cons.1 hg with rfl | hg
        · exact ⟨f, List.mem_cons_self, rfl⟩
        · exact ⟨g, List.mem_cons_of_mem _ hg, rfl⟩

theorem passes_fill (code : Code S α) (c : S.Key) (v : S.Val c) :
    Passes w e ((e.resume code).fill w c v).1 ((e.resume code).fill w c v).2 := by
  unfold fill
  split
  · exact .same (.refl w) rfl rfl
  · next f rest hf =>
    have hframes : ∀ g ∈ { f with fills := f.fills ++ [c] } :: rest,
        ∃ h ∈ e.frames, h.unit.id = g.unit.id := by
      change e.frames = f :: rest at hf
      rw [hf]
      intro g hg
      rcases List.mem_cons.1 hg with rfl | hg
      · exact ⟨f, List.mem_cons_self, rfl⟩
      · exact ⟨g, List.mem_cons_of_mem _ hg, rfl⟩
    dsimp only
    split
    · exact ⟨World.extends_of_eq rfl, rfl, fun g hg => .inl (hframes g hg)⟩
    · exact ⟨.refl w, rfl, fun g hg => .inl (hframes g hg)⟩

theorem passes_startProbe (c : S.Key) (next : Except Error (Probe (S.Val c)) → Code S α) :
    Passes w e w (e.startProbe w c next) := by
  unfold startProbe
  dsimp only
  split
  all_goals exact .silent _ rfl rfl

theorem passes_serve {r : Request S} {next : r.Answer → Code S α}
    (h : e.serve m w r next = some (w', e')) : Passes w e w' e' := by
  cases r with
  | register label phase rule =>
    cases h
    exact .same (w.extends_register _ _ _ _) rfl rfl
  | probe c =>
    cases h
    exact passes_startProbe c next
  | fill c v =>
    have hfill := passes_fill (w := w) (e := e) (next ()) c v
    rwa [Option.some.inj h] at hfill
  | fail d =>
    have hfail := passes_fail (m := m) (w := w) (e := e) (next ()) d
    rwa [Option.some.inj h] at hfail
  | reset c =>
    cases h
    exact .same (w.extends_reset _ c) rfl rfl
  | report d =>
    cases h
    exact .same (w.extends_report m _ _ d) rfl rfl
  | await ready =>
    simp only [serve] at h
    split at h
    · cases h
      exact .silent _ rfl rfl
    · cases h
  | _ =>
    cases h
    exact .same (World.extends_of_eq rfl) rfl rfl

theorem lt_size_of_granted {u : WorkUnit S.Rule}
    (h : e.admission (w.scheduler e.home) u = .granted) :
    u.id < (w.scheduler e.home).entries.size := by
  by_contra hnot
  have hstatus := ((w.scheduler e.home).status?_eq_none_iff u.id).2 (Nat.not_lt.1 hnot)
  rw [admission, hstatus] at h
  split at h <;> cases h

theorem passes_enter (u : WorkUnit S.Rule) :
    Passes w e (e.enter m w u).1 (e.enter m w u).2 := by
  unfold enter
  dsimp only
  cases hadmission : e.admission (w.scheduler e.home) u with
  | reentered index =>
    dsimp only
    split
    · exact .silent _ rfl rfl
    · have ht : w.Extends (w.modifyScheduler e.home fun s => s.setStatus u.id .runningRecursive) :=
        w.extends_modifyScheduler _ fun s => by simp
      exact .join ht.note rfl rfl
  | granted =>
    refine ⟨w.extends_modifyScheduler _ fun s => by simp, rfl, fun f hf => ?_⟩
    rcases List.mem_cons.1 hf with rfl | hf
    · exact .inr (lt_size_of_granted hadmission)
    · exact .inl ⟨f, hf, rfl⟩
  | crossed status index =>
    cases status with
    | runningWillFail => exact .silent _ rfl rfl
    | _ =>
      dsimp only
      split
      · exact .silent _ rfl rfl
      · next head _ =>
        have ht : w.Extends (w.modifyScheduler e.home fun s =>
            if s.status? head.unit.id = some .running then
              s.setStatus head.unit.id .runningRecursive
            else s) := by
          refine w.extends_modifyScheduler _ fun s => ?_
          split
          · simp
          · exact Nat.le_refl _
        exact .join ht.note rfl rfl
  | busy => exact .same (w.extends_modifyScheduler _ fun s => Nat.le_refl _) rfl rfl
  | _ => exact .silent _ rfl rfl

theorem passes_passBarrier {u : WorkUnit S.Rule} {phase : Phase}
    (h : e.passBarrier pick w u phase = some (w', e')) : Passes w e w' e' := by
  unfold passBarrier at h
  dsimp only at h
  repeat' split at h
  all_goals
    cases h
    try exact .same (World.extends_of_eq rfl) rfl rfl

theorem passes_close (result : Except Error Unit) :
    Passes w e (e.close w result).1 (e.close w result).2 := by
  unfold close
  dsimp only
  split
  · split
    · exact .silent _ rfl rfl
    · split
      · exact .same (w.extends_foldl_softened _) rfl rfl
      · exact .silent _ rfl rfl
  · exact .silent _ rfl rfl

theorem passes_settle {result : Except Error Unit} (h : e.settle w result = some (w', e')) :
    Passes w e w' e' := by
  unfold settle at h
  split at h
  · next f frames levels hframes hlevels =>
    cases h
    refine ⟨w.extends_modifyScheduler _ fun s => by simp, rfl, fun g hg => .inl ⟨g, ?_, rfl⟩⟩
    rw [hframes]
    exact List.mem_cons_of_mem _ hg
  · cases h

theorem passes_answer {outcome : Except Error Attempt} (h : e.answer w outcome = some (w', e')) :
    Passes w e w' e' := by
  unfold answer at h
  split at h
  · cases h
    exact .silent _ rfl rfl
  · split at h
    · cases h
      exact .silent _ rfl rfl
    · unfold finishProbe at h
      dsimp only at h
      split at h
      all_goals
        cases h
        exact .same (World.extends_of_eq rfl) rfl rfl
  · split at h
    all_goals
      cases h
      exact .silent _ rfl rfl
  · cases h

theorem passes_of_step (h : e.step m pick w = some (w', e')) : Passes w e w' e' := by
  unfold step at h
  split at h
  · next next rest _ =>
    have hwrite := passes_write (m := m) (w := w) (e := e) next rest
    rwa [Option.some.inj h] at hwrite
  · split at h
    · cases h
      exact .silent _ rfl rfl
    · exact passes_serve h
    · next result _ =>
      have hclose := passes_close (w := w) (e := e) result
      rwa [Option.some.inj h] at hclose
    · exact passes_serve h
    · next u _ =>
      have henter := passes_enter (m := m) (w := w) (e := e) u
      rwa [Option.some.inj h] at henter
    · next u _ =>
      split at h
      · cases h
      · have henter := passes_enter (m := m)
          (w := w.modifyScheduler e.home fun s => s.stopWaiting e.id) (e := e) u
        rw [Option.some.inj h] at henter
        have hwake : w.Extends (w.modifyScheduler e.home fun s => s.stopWaiting e.id) :=
          w.extends_modifyScheduler _ fun _ => Nat.le_refl _
        refine ⟨hwake.trans henter.tables, henter.home, fun f hf => ?_⟩
        refine (henter.frames f hf).imp_right fun hid => ?_
        rw [World.scheduler_modifyScheduler] at hid
        split at hid
        · exact hid
        · exact hid
    · exact passes_passBarrier h
    · exact passes_settle h
    · exact passes_answer h
    · cases h
    · cases h

end Evaluator

/-! ## Evaluators of any number of sessions -/

/-- The evaluators that come about in a world of several schedulers. Whatever else happens to
the world, a scheduler forgets no unit. -/
inductive Crowd (m : Model S) : World S → List (Evaluator S α) → Prop where
  | start (w : World S) : Crowd m w []
  | change {w w' : World S} {members : List (Evaluator S α)} (h : Crowd m w members)
    (hw : w.Extends w') : Crowd m w' members
  | hire {w : World S} {members : List (Evaluator S α)} (h : Crowd m w members)
    (home : SchedulerId) (worker : Option Nat) (a : Action S α) :
    Crowd m (w.evaluator home worker (.act (.top a))).1
      (members ++ [(w.evaluator home worker (.act (.top a))).2])
  | resume {w : World S} {before after : List (Evaluator S α)} {e : Evaluator S α} {b : α}
    (h : Crowd m w (before ++ e :: after)) (a : Action S α) (hw : e.writes = [])
    (hf : e.focus = .done b) : Crowd m w (before ++ e.resume (.top a) :: after)
  | step {w w' : World S} {before after : List (Evaluator S α)} {e e' : Evaluator S α}
    (h : Crowd m w (before ++ e :: after)) (pick : Nat) (elsewhere : S.Key → Bool)
    (hstep : e.step m pick { w with elsewhere } = some (w', e')) :
    Crowd m w' (before ++ e' :: after)

theorem Crowd.registered {m : Model S} {w : World S} {members : List (Evaluator S α)}
    (h : Crowd m w members) : ∀ e ∈ members, e.Registered w := by
  have hgrown : ∀ {w w' : World S} {e : Evaluator S α}, w.Extends w' → e.Registered w →
      e.Registered w' := fun hw he f hf => Nat.lt_of_lt_of_le (he f hf) (hw _)
  induction h with
  | start => exact nofun
  | change _ hw ih => exact fun e he => hgrown hw (ih e he)
  | hire _ home worker a ih =>
    intro e he
    rcases List.mem_append.1 he with he | he
    · exact hgrown (World.extends_of_eq rfl) (ih e he)
    · cases List.mem_singleton.1 he
      exact nofun
  | @resume w before after d _ _ a _ _ ih =>
    simp only [List.forall_mem_append, List.forall_mem_cons] at ih ⊢
    exact ih
  | @step w w' before after d d' _ pick elsewhere hstep ih =>
    have hpasses := Evaluator.passes_of_step hstep
    have hw : w.Extends w' := (World.extends_of_eq rfl).trans hpasses.tables
    simp only [List.forall_mem_append, List.forall_mem_cons] at ih ⊢
    obtain ⟨hbefore, hd, hafter⟩ := ih
    exact ⟨fun e he => hgrown hw (hbefore e he), hpasses.registered hd,
      fun e he => hgrown hw (hafter e he)⟩

/-! ## Asking for a unit -/

inductive Code.Asks : Code S α → (r : Request S) → (r.Answer → Code S α) → Prop where
  | top {r : Request S} (next : r.Answer → Action S α) : Asks (.top (.ask r next)) r (.top <| next ·)
  | body {r : Request S} (next : r.Answer → Action S (Except Error Unit)) :
    Asks (.body (.ask r next)) r (.body <| next ·)

/-- The evaluator is about to ask for a unit, or to read a cell whose resolver it is, and goes on
with `fails` if that is an error. -/
inductive Evaluator.Calls (w : World S) (e : Evaluator S α) (u : WorkUnit S.Rule) :
    (Error → Code S α) → Prop where
  | attempt {code : Code S α} {next : Except Error Attempt → Code S α} (hw : e.writes = [])
    (hf : e.focus = .act code) (hcode : code.Asks (.attempt u) next) :
    Calls w e u fun error => next (.error error)
  | probe {code : Code S α} {c : S.Key} {next : Except Error (Probe (S.Val c)) → Code S α}
    (hw : e.writes = []) (hf : e.focus = .act code) (hcode : code.Asks (.probe c) next)
    (hresolver : (w.cell c).resolver = some u) (hvalue : ∀ v, (w.cell c).value ≠ .forced v) :
    Calls w e u fun error => next (.error error)

/-- What becomes of asking for a unit, by what the evaluator's own scheduler knows of the number. -/
structure Evaluator.Received (m : Model S) (w : World S) (e : Evaluator S α)
    (u : WorkUnit S.Rule) (w' : World S) (e' : Evaluator S α) : Prop where
  unknown : (w.scheduler e.home).entries.size ≤ u.id →
    w' = w ∧ e' = e.reply (.error (.unknownUnit u.id))
  known : u.id < (w.scheduler e.home).entries.size →
    e'.focus ≠ .answer (.error (.unknownUnit u.id))
  /-- Some unit of that number is on the stack. -/
  reentered : (∃ f ∈ e.frames, f.unit.id = u.id) →
    (w.scheduler e.home).status? u.id ≠ some .runningWillFail →
    e'.focus = .answer (.ok .cycle) ∧
      (w'.scheduler e.home).status? u.id = some .runningRecursive
  succeeded : (∀ f ∈ e.frames, f.unit.id ≠ u.id) →
    (w.scheduler e.home).status? u.id = some .success → w' = w ∧ e' = e.reply (.ok .success)
  failed : (∀ f ∈ e.frames, f.unit.id ≠ u.id) →
    (w.scheduler e.home).status? u.id = some .fail → w' = w ∧ e' = e.reply (.ok .fail)
  /-- The body of `u` is run under the number. -/
  claimed : (∀ f ∈ e.frames, f.unit.id ≠ u.id) →
    (w.scheduler e.home).status? u.id = some .new →
    (∀ p, u.phase = some p → (w.scheduler e.home).hasEarlier p = false) →
    e.frames.length < (w.scheduler e.home).limits.maxDepth →
    e'.frames = { unit := u } :: e.frames ∧ e'.focus = .act (.body (m.body u.rule)) ∧
      (w'.scheduler e.home).status? u.id = some .running

namespace Evaluator

variable {m : Model S} {w : World S} {e : Evaluator S α} {u : WorkUnit S.Rule}

theorem home_lt {i : SchedulerId} {id : UnitId} (h : id < (w.scheduler i).entries.size) :
    i < w.schedulers.size := by
  by_contra hnot
  rw [World.scheduler, Array.getD_eq_getD_getElem?, Array.getElem?_eq_none (Nat.not_lt.1 hnot)] at h
  exact absurd h (Nat.not_lt_zero id)

theorem size_le_of_unknown (h : e.admission (w.scheduler e.home) u = .unknown) :
    (w.scheduler e.home).entries.size ≤ u.id := by
  rw [← Scheduler.status?_eq_none_iff]
  cases hstatus : (w.scheduler e.home).status? u.id with
  | none => rfl
  | some status =>
    rw [admission, hstatus] at h
    cases status <;> grind

theorem lt_size_of_mem (h : e.Registered w) (hmem : ∃ f ∈ e.frames, f.unit.id = u.id) :
    u.id < (w.scheduler e.home).entries.size := by
  obtain ⟨f, hf, hid⟩ := hmem
  rw [← hid]
  exact h f hf

theorem received_enter (h : e.Registered w) :
    e.Received m w u (e.enter m w u).1 (e.enter m w u).2 where
  unknown hsize := by
    have hnone : Frame.indexOf? u.id e.frames = none := by
      rw [Frame.indexOf?_eq_none_iff]
      intro f hf hid
      exact absurd (lt_size_of_mem h ⟨f, hf, hid⟩) (Nat.not_lt.2 hsize)
    have hstatus := ((w.scheduler e.home).status?_eq_none_iff u.id).2 hsize
    simp [enter, admission, hnone, hstatus]
  known hlt := by
    unfold enter
    dsimp only
    cases hadmission : e.admission (w.scheduler e.home) u with
    | unknown => exact absurd (size_le_of_unknown hadmission) (Nat.not_le.2 hlt)
    | reentered index =>
      dsimp only
      split <;> rintro ⟨⟩
    | crossed status index =>
      cases status with
      | runningWillFail => rintro ⟨⟩
      | _ =>
        dsimp only
        split <;> rintro ⟨⟩
    | _ => rintro ⟨⟩
  reentered hmem hstatus := by
    have hlt := lt_size_of_mem h hmem
    cases hindex : Frame.indexOf? u.id e.frames with
    | none =>
      obtain ⟨f, hf, hid⟩ := hmem
      exact absurd hid (Frame.indexOf?_eq_none_iff.1 hindex f hf)
    | some index =>
      simp only [enter, admission, hindex, if_neg hstatus]
      refine ⟨rfl, ?_⟩
      change ((w.modifyScheduler e.home _).scheduler e.home).status? u.id = _
      rw [World.scheduler_modifyScheduler_self _ (home_lt hlt), Scheduler.status?_setStatus _ hlt,
        if_pos rfl]
  succeeded hoff hstatus := by
    simp [enter, admission, Frame.indexOf?_eq_none_iff.2 hoff, hstatus]
  failed hoff hstatus := by
    simp [enter, admission, Frame.indexOf?_eq_none_iff.2 hoff, hstatus]
  claimed hoff hstatus hphase hdepth := by
    have hlt := Scheduler.lt_size_of_status? _ hstatus
    have hfilter : u.phase.filter (w.scheduler e.home).hasEarlier = none := by
      cases hp : u.phase with
      | none => rfl
      | some p => simp [Option.filter, hphase p hp]
    have hgranted : e.admission (w.scheduler e.home) u = .granted := by
      simp only [admission, Frame.indexOf?_eq_none_iff.2 hoff, hstatus, hfilter,
        if_neg (Nat.not_le.2 hdepth)]
    unfold enter
    dsimp only
    rw [hgranted]
    refine ⟨rfl, rfl, ?_⟩
    change ((w.modifyScheduler e.home _).scheduler e.home).status? u.id = _
    rw [World.scheduler_modifyScheduler_self _ (home_lt hlt), Scheduler.status?_claim _ hlt,
      if_pos rfl]

def calling (e : Evaluator S α) (level : Level S α) (u : WorkUnit S.Rule) : Evaluator S α :=
  { e with levels := level :: e.levels, focus := .enter u }

theorem Calls.writes {fails : Error → Code S α} (h : e.Calls w u fails) : e.writes = [] := by
  cases h with
  | attempt hw => exact hw
  | probe hw => exact hw

/-- Whoever asks for a unit enters it in the next step, and goes on with the error if there is
one. -/
theorem Calls.step {fails : Error → Code S α} (h : e.Calls w u fails) :
    ∃ level, (∀ pick, e.step m pick w = some (w, e.calling level u)) ∧
      ∀ error w' pick, ((e.calling level u).reply (.error error)).step m pick w' =
        some (w', e.resume (fails error)) := by
  obtain ⟨id, home, worker, frames, levels, writes, focus⟩ := e
  cases h with
  | @attempt code next hw hf hcode =>
    cases hw
    cases hf
    refine ⟨.attempted next, fun pick => ?_, fun error w' pick => rfl⟩
    cases hcode with
    | top | body => rfl
  | @probe code c next hw hf hcode hresolver hvalue =>
    cases hw
    cases hf
    refine ⟨.probed c u.label next, fun pick => ?_, fun error w' pick => rfl⟩
    have hprobe : ∀ e : Evaluator S α, e.startProbe w c next =
        { e with levels := .probed c u.label next :: e.levels, focus := .enter u } := by
      intro e
      unfold startProbe
      dsimp only
      rw [hresolver]
      cases hv : (w.cell c).value with
      | forced v => exact absurd hv (hvalue v)
      | soft v => rfl
      | unset => rfl
    cases hcode with
    | top next => exact congrArg (fun e => some (w, e)) (hprobe _)
    | body next => exact congrArg (fun e => some (w, e)) (hprobe _)

end Evaluator

/-- **Units are known by their numbers.** Take evaluators of any number of schedulers, and one of
them that asks for a unit, directly or through a cell. It does not matter which scheduler the
unit comes from. The unit is unknown if and only if its number is too large for the evaluator's
own scheduler when it is looked up; then nothing is changed, and the code goes on with the error.
Otherwise it is treated as the unit of that number here. -/
theorem Crowd.known_by_number {m : Model S} {w : World S} {members : List (Evaluator S α)}
    (h : Crowd m w members) {e : Evaluator S α} (he : e ∈ members) {u : WorkUnit S.Rule}
    {fails : Error → Code S α} (hcalls : e.Calls w u fails) :
    ∃ entering : Evaluator S α, entering.home = e.home ∧ entering.frames = e.frames ∧
      (∀ pick, e.step m pick w = some (w, entering)) ∧
      (∀ w', w.Extends w' → ∃ w'' e'', (∀ pick, entering.step m pick w' = some (w'', e'')) ∧
        entering.Received m w' u w'' e'') ∧
      ∀ w' pick, (entering.reply (.error (.unknownUnit u.id))).step m pick w' =
        some (w', e.resume (fails (.unknownUnit u.id))) := by
  obtain ⟨level, hstep, hfails⟩ := hcalls.step (m := m)
  refine ⟨e.calling level u, rfl, rfl, hstep, fun w' hw => ?_, hfails _⟩
  refine ⟨_, _, fun pick => ?_, Evaluator.received_enter fun f hf => ?_⟩
  · rw [Evaluator.step, Evaluator.calling, hcalls.writes]
  · exact Nat.lt_of_lt_of_le (h.registered e he f hf) (hw e.home)

/-! ## Two sessions -/

private def filling : Model sheet :=
  .ofBodies fun c => .ask (.fill c c) fun _ => .pure (.ok ())

private def mine : WorkUnit Nat := ⟨0, "mine", some 1, 7, 0⟩

private def theirs : WorkUnit Nat := ⟨0, "theirs", some 1, 8, 1⟩

private def theirSecond : WorkUnit Nat := ⟨1, "second", none, 9, 1⟩

/-- One session has registered `mine`, another one `theirs` and `theirSecond`. -/
private def neighbours : World sheet :=
  let w : World sheet := { env := (), schedulers := #[{}, {}] }
  let w := (w.register 0 "mine" (some 1) (7 : Nat)).1
  let w := (w.register 1 "theirs" (some 1) (8 : Nat)).1
  (w.register 1 "second" none (9 : Nat)).1

/-- The second unit of the other session is unknown here. -/
theorem known_by_number_second :
    ∃ (w : World sheet) (e entering : Evaluator sheet (Except Error Attempt)),
      Crowd filling w [e] ∧ e.home = mine.home ∧ theirSecond.home ≠ e.home ∧
      (∀ pick, e.step filling pick w = some (w, entering)) ∧
      (∀ pick, entering.step filling pick w =
        some (w, entering.reply (.error (.unknownUnit theirSecond.id)))) ∧
      ∀ pick, (entering.reply (.error (.unknownUnit theirSecond.id))).step filling pick w =
        some (w, e.resume (.top (.pure (.error (.unknownUnit theirSecond.id))))) := by
  have hcrowd := (Crowd.start neighbours).hire (m := filling) 0 none (Action.attempt theirSecond)
  obtain ⟨entering, hhome, -, hstep, hreceived, hfails⟩ :=
    hcrowd.known_by_number List.mem_cons_self (.attempt rfl rfl (.top _))
  obtain ⟨w, e, hnext, hunit⟩ := hreceived _ (.refl _)
  obtain ⟨rfl, rfl⟩ := hunit.unknown (by rw [hhome]; decide +kernel)
  exact ⟨_, _, entering, hcrowd, rfl, by decide, hstep, hnext, hfails _⟩

/-- The first one is taken for the unit that has the number 0 here: its body is run, and the
unit `mine` counts as done and is no longer waited for. -/
theorem schedulers_mix : theirs.home ≠ mine.home ∧
    (neighbours.scheduler 0).status? mine.id = some .new ∧
    (neighbours.scheduler 0).pendingIn 1 = 1 ∧
    (neighbours.perform filling 20 0 (.attempt theirs)).2 = some (.ok .success) ∧
    ((neighbours.perform filling 20 0 (.attempt theirs)).1.scheduler 0).status? mine.id =
      some .success ∧
    ((neighbours.perform filling 20 0 (.attempt theirs)).1.scheduler 0).pendingIn 1 = 0 ∧
    ((neighbours.perform filling 20 0 (.attempt theirs)).1.scheduler 1).status? theirs.id =
      some .new ∧
    ((neighbours.perform filling 20 0 (.attempt theirs)).1.cell mine.rule).value = .unset ∧
    ((neighbours.perform filling 20 0 (.attempt theirs)).1.cell theirs.rule).value = .forced 8 := by
  refine ⟨by decide, rfl, rfl, rfl, rfl, rfl, rfl, rfl, rfl⟩

end Attribution.Engine
