import Attribution.Proofs.Engine.Ends
/-!
# What a run adds to the world

Reports are only ever added to the buffer of a session. A cell gets a resolver only
from code that says so; if neither the code nor the body of any unit gives one to the
cells of some set, they have none after the run if they had none before it
(`Leads.grows`).
-/

namespace Attribution.Engine

variable {S : Schema} {α β : Type} (spared : S.Key → Prop)

/-! ## Code that spares cells -/

def Request.Resolves : Request S → S.Key → Prop
  | .resolveWith c _, d => c = d
  | _, _ => False

/-- The action gives none of the cells a resolver, whatever it is answered. -/
def Action.Spares : Action S α → Prop
  | .pure _ => True
  | .ask r next => (∀ c, spared c → ¬r.Resolves c) ∧ ∀ x, Spares (next x)

def Code.Spares : Code S α → Prop
  | .body a => a.Spares spared
  | .top a => a.Spares spared

def Level.Spares : Level S α → Prop
  | .attempted next => ∀ x, (next x).Spares spared
  | .probed _ _ next => ∀ x, (next x).Spares spared
  | _ => True

def Focus.Spares : Focus S α → Prop
  | .act code => code.Spares spared
  | _ => True

structure Evaluator.Spares (e : Evaluator S α) : Prop where
  focus : e.focus.Spares spared
  levels : ∀ l ∈ e.levels, l.Spares spared

variable {spared}

theorem Action.Spares.bind {x : Action S β} {f : β → Action S α} (hx : x.Spares spared)
    (hf : ∀ b, (f b).Spares spared) : (x.bind f).Spares spared := by
  induction x with
  | pure b => exact hf b
  | ask r next ih => exact ⟨hx.1, fun x => ih x (hx.2 x)⟩

theorem Action.spares_deliver (c : S.Key) (v : S.Val c) : (deliver c v).Spares spared := by
  refine ⟨fun _ _ h => h, fun view => ?_⟩
  change Spares spared (if view.resolves c = true then request (.fill c v) else pure ())
  split
  · exact ⟨fun _ _ h => h, fun _ => trivial⟩
  · trivial

/-! ## Worlds that grow -/

variable (spared) in
/-- Reports may have been added, but none of the cells has got a resolver. -/
structure World.Grows (w w' : World S) : Prop where
  reports : ∀ i, (w.scheduler i).buffer.toList <+: (w'.scheduler i).buffer.toList
  resolver : ∀ c, spared c → (w.cell c).resolver = none → (w'.cell c).resolver = none

namespace World

variable {w w' : World S}

theorem Grows.refl (w : World S) : w.Grows spared w :=
  ⟨fun _ => List.prefix_rfl, fun _ _ h => h⟩

theorem Grows.trans {u v w : World S} (h : u.Grows spared v) (h' : v.Grows spared w) :
    u.Grows spared w :=
  ⟨fun i => (h.reports i).trans (h'.reports i),
    fun c hc hnone => h'.resolver c hc (h.resolver c hc hnone)⟩

theorem grows_of_eq (hs : w'.schedulers = w.schedulers) (hc : w'.cells = w.cells) :
    w.Grows spared w' := by
  refine ⟨fun i => ?_, fun c _ h => ?_⟩
  · have hsame : w'.scheduler i = w.scheduler i := by rw [scheduler, scheduler, hs]
    exact ⟨[], by rw [hsame, List.append_nil]⟩
  · rw [cell, hc]
    exact h

theorem grows_modifyCell (w : World S) (c : S.Key) {f : Cell S c → Cell S c}
    (hf : (w.cell c).resolver = none → (f (w.cell c)).resolver = none) :
    w.Grows spared (w.modifyCell c f) := by
  refine ⟨fun _ => List.prefix_rfl, fun d _ h => ?_⟩
  by_cases heq : c = d
  · subst heq
    rw [cell_modifyCell_self]
    exact hf h
  · rw [cell_modifyCell_ne w f heq]
    exact h

theorem grows_modifyScheduler (w : World S) (i : SchedulerId)
    {f : Scheduler S.Rule → Scheduler S.Rule}
    (hf : ∀ s, s.buffer.toList <+: (f s).buffer.toList) :
    w.Grows spared (w.modifyScheduler i f) := by
  refine ⟨fun j => ?_, fun _ _ h => h⟩
  rw [scheduler_modifyScheduler]
  split
  · exact hf _
  · exact List.prefix_rfl

theorem grows_of_buffer (w : World S) (i : SchedulerId) {f : Scheduler S.Rule → Scheduler S.Rule}
    (hf : ∀ s, (f s).buffer = s.buffer) : w.Grows spared (w.modifyScheduler i f) := by
  refine w.grows_modifyScheduler i fun s => ⟨[], ?_⟩
  rw [hf, List.append_nil]

theorem Grows.note {origin : Option Nat} {e : Event} (h : w.Grows spared w') :
    w.Grows spared (w'.note origin e) :=
  h.trans (grows_of_eq rfl rfl)

theorem grows_report (m : Model S) (w : World S) (origin : Option Nat) (i : SchedulerId)
    (d : Diagnostic) : w.Grows spared (w.report m origin i d) := by
  have hnote : w.Grows spared (w.note origin (.reported d)) := (Grows.refl w).note
  refine hnote.trans ?_
  unfold report
  dsimp only
  split
  · refine grows_modifyScheduler _ i fun s => ?_
    rw [Array.toList_push]
    exact List.prefix_append _ _
  · exact grows_of_eq rfl rfl

theorem grows_setValue (w : World S) (c : S.Key) (v : CellValue (S.Val c)) :
    w.Grows spared (w.setValue c v) :=
  w.grows_modifyCell c fun h => h

theorem grows_soften (w : World S) (origin : Option Nat) (c : S.Key) (v : S.Val c) :
    w.Grows spared (w.soften origin c v) :=
  (w.grows_setValue c _).note

/-- Only a cell that has a resolver gets a new one when it is cleared. -/
theorem grows_reset (w : World S) (origin : Option Nat) (c : S.Key) :
    w.Grows spared (w.reset origin c) := by
  refine (w.grows_setValue c .unset).trans ?_
  by_cases h : ∃ u, (w.cell c).resolver = some u ∧ (w.unitStatus? u).any Status.isTerminal = true
  · obtain ⟨u, hu, ht⟩ := h
    rw [w.reset_eq_of_settled origin hu ht]
    refine Grows.note (Grows.trans (grows_of_buffer _ u.home ?_) (grows_modifyCell _ c ?_))
    · exact fun _ => rfl
    intro hnone
    rw [cell_modifyScheduler, cell_setValue_self, hu] at hnone
    cases hnone
  · rw [w.reset_eq_of_unsettled origin c fun u hu =>
      Bool.eq_false_iff.2 fun ht => h ⟨u, hu, ht⟩]
    exact (Grows.refl _).note

theorem grows_foldl_softened (w : World S) (cells : List S.Key) :
    w.Grows spared (cells.foldl (fun w c =>
      w.modifyCell c fun cell => { cell with value := cell.value.softened }) w) := by
  induction cells generalizing w with
  | nil => exact .refl w
  | cons c rest ih =>
    rw [List.foldl_cons]
    refine Grows.trans ?_ (ih _)
    exact w.grows_modifyCell c fun h => h

end World

/-! ## Steps -/

namespace Evaluator

variable (spared) in
/-- A step of code that spares the cells to code that does so too. -/
structure Goes (w w' : World S) (e' : Evaluator S α) : Prop where
  grows : w.Grows spared w'
  spares : e'.Spares spared

variable {m : Model S} {w w' : World S} {e e' : Evaluator S α}

theorem goes_write (h : e.Spares spared) (next : Write S) (rest : List (Write S)) :
    Goes spared w (e.write m w next rest).1 (e.write m w next rest).2 := by
  cases next with
  | force c v => exact ⟨(w.grows_setValue c _).note, h.focus, h.levels⟩
  | notify c hook v => exact ⟨World.grows_of_eq rfl rfl, h.focus, h.levels⟩

theorem goes_fail (h : e.Spares spared) (d : Diagnostic) :
    Goes spared w (e.fail m w d).1 (e.fail m w d).2 := by
  unfold fail
  split
  · exact ⟨World.grows_report _ _ _ _ _, h⟩
  · split
    · exact ⟨(World.Grows.refl w).note, h⟩
    · refine ⟨World.Grows.trans (w.grows_of_buffer _ ?_) (World.grows_report _ _ _ _ _), h.focus,
        h.levels⟩
      exact fun _ => rfl

theorem goes_fill (h : e.Spares spared) (c : S.Key) (v : S.Val c) :
    Goes spared w (e.fill w c v).1 (e.fill w c v).2 := by
  unfold fill
  dsimp only
  split
  · exact ⟨.refl w, h.focus, h.levels⟩
  · split
    · exact ⟨World.grows_soften _ _ _ _, h.focus, h.levels⟩
    · exact ⟨.refl w, h.focus, h.levels⟩

theorem spares_push {level : Level S α} (h : e.Spares spared) (hlevel : level.Spares spared) :
    ∀ l ∈ level :: e.levels, l.Spares spared := by
  intro l hl
  rcases List.mem_cons.1 hl with rfl | hl
  · exact hlevel
  · exact h.levels l hl

theorem goes_startProbe (h : e.Spares spared) {c : S.Key}
    {next : Except Error (Probe (S.Val c)) → Code S α} (hnext : ∀ x, (next x).Spares spared) :
    (e.startProbe w c next).Spares spared := by
  unfold startProbe
  dsimp only
  split
  · exact ⟨hnext _, h.levels⟩
  · exact ⟨trivial, spares_push h hnext⟩
  · exact ⟨hnext _, h.levels⟩
  · exact ⟨hnext _, h.levels⟩

theorem goes_serve (h : e.Spares spared) {r : Request S} {next : r.Answer → Code S α}
    (hr : ∀ c, spared c → ¬r.Resolves c) (hnext : ∀ x, (next x).Spares spared)
    (hserve : e.serve m w r next = some (w', e')) : Goes spared w w' e' := by
  cases r with
  | env | look | note =>
    cases hserve
    exact ⟨World.grows_of_eq rfl rfl, hnext _, h.levels⟩
  | register label phase rule =>
    cases hserve
    exact ⟨w.grows_of_buffer _ fun _ => rfl, hnext _, h.levels⟩
  | resolveWith c u =>
    cases hserve
    refine ⟨⟨fun _ => List.prefix_rfl, fun d hd hnone => ?_⟩, hnext _, h.levels⟩
    by_cases hcd : c = d
    · subst hcd
      exact absurd rfl (hr c hd)
    · rw [World.resolveWith, World.cell_modifyCell_ne _ _ hcd]
      exact hnone
  | addHook c hook =>
    cases hserve
    exact ⟨w.grows_modifyCell c fun hnone => hnone, hnext _, h.levels⟩
  | attempt u =>
    cases hserve
    exact ⟨.refl w, trivial, spares_push h hnext⟩
  | probe c =>
    cases hserve
    exact ⟨.refl w, goes_startProbe h hnext⟩
  | fill c v =>
    have hfill := goes_fill (w := w) (e := e.resume (next ())) ⟨hnext (), h.levels⟩ c v
    rw [Option.some.inj hserve] at hfill
    exact hfill
  | force c v =>
    cases hserve
    exact ⟨.refl w, hnext _, h.levels⟩
  | soften c v =>
    cases hserve
    exact ⟨World.grows_soften _ _ _ _, hnext _, h.levels⟩
  | reset c =>
    cases hserve
    exact ⟨World.grows_reset _ _ _, hnext _, h.levels⟩
  | fail d =>
    have hfail := goes_fail (m := m) (w := w) (e := e.resume (next ())) ⟨hnext (), h.levels⟩ d
    rw [Option.some.inj hserve] at hfail
    exact hfail
  | report d =>
    cases hserve
    exact ⟨World.grows_report _ _ _ _ _, hnext _, h.levels⟩
  | await ready =>
    simp only [serve] at hserve
    split at hserve
    · cases hserve
      exact ⟨.refl w, hnext _, h.levels⟩
    · cases hserve
  | crash =>
    cases hserve
    exact ⟨.refl w, trivial, h.levels⟩

theorem goes_enter (h : e.Spares spared) (hbody : ∀ rule, (m.body rule).Spares spared)
    (u : WorkUnit S.Rule) : Goes spared w (e.enter m w u).1 (e.enter m w u).2 := by
  unfold enter
  dsimp only
  split
  · split
    · exact ⟨.refl w, trivial, h.levels⟩
    · exact ⟨.note (w.grows_of_buffer _ fun _ => rfl), trivial, h.levels⟩
  · exact ⟨.refl w, trivial, h.levels⟩
  · exact ⟨.refl w, trivial, h.levels⟩
  · exact ⟨.refl w, trivial, h.levels⟩
  · exact ⟨.refl w, trivial, h.levels⟩
  · exact ⟨.note (w.grows_of_buffer _ fun _ => rfl), hbody u.rule, spares_push h trivial⟩
  · exact ⟨.refl w, trivial, h.levels⟩
  · split
    · exact ⟨.refl w, trivial, h.levels⟩
    · refine ⟨.note (w.grows_of_buffer _ fun s => ?_), trivial, h.levels⟩
      split
      · rfl
      · rfl
  · exact ⟨w.grows_of_buffer _ fun _ => rfl, trivial, h.levels⟩

theorem goes_passBarrier (h : e.Spares spared) {pick : Nat} {u : WorkUnit S.Rule} {phase : Phase}
    (hpass : e.passBarrier pick w u phase = some (w', e')) : Goes spared w w' e' := by
  unfold passBarrier at hpass
  dsimp only at hpass
  split at hpass
  · cases hpass
    exact ⟨.refl w, trivial, h.levels⟩
  · split at hpass
    · cases hpass
      exact ⟨.refl w, trivial, h.levels⟩
    · split at hpass
      · cases hpass
        exact ⟨(World.Grows.refl w).note, trivial, spares_push h trivial⟩
      · cases hpass

theorem goes_close (h : e.Spares spared) (result : Except Error Unit) :
    Goes spared w (e.close w result).1 (e.close w result).2 := by
  unfold close
  dsimp only
  split
  · split
    · exact ⟨.refl w, trivial, h.levels⟩
    · split
      · exact ⟨World.grows_foldl_softened _ _, trivial, h.levels⟩
      · exact ⟨.refl w, trivial, h.levels⟩
  · exact ⟨.refl w, trivial, h.levels⟩

theorem goes_settle (h : e.Spares spared) {result : Except Error Unit}
    (hsettle : e.settle w result = some (w', e')) : Goes spared w w' e' := by
  unfold settle at hsettle
  split at hsettle
  · rename_i f frames levels hf hl
    cases hsettle
    refine ⟨.note (w.grows_of_buffer _ fun _ => rfl), trivial, fun l hmem => h.levels l ?_⟩
    rw [hl]
    exact List.mem_cons_of_mem _ hmem
  · cases hsettle

theorem goes_finishProbe (h : e.Spares spared) {c : S.Key} (resolver : String)
    {next : Except Error (Probe (S.Val c)) → Code S α} (hnext : ∀ x, (next x).Spares spared)
    (outcome : Attempt) : Goes spared w (e.finishProbe w c resolver next outcome).1
      (e.finishProbe w c resolver next outcome).2 := by
  unfold finishProbe
  dsimp only
  split
  case h_6 => exact ⟨World.grows_soften _ _ _ _, hnext _, h.levels⟩
  case h_12 =>
    exact ⟨(World.Grows.refl w).note.trans (World.grows_soften _ _ _ _), hnext _, h.levels⟩
  all_goals exact ⟨.refl w, hnext _, h.levels⟩

theorem spares_pop {level : Level S α} {levels : List (Level S α)} (h : e.Spares spared)
    (hl : e.levels = level :: levels) : level.Spares spared ∧ ∀ l ∈ levels, l.Spares spared := by
  have hall := h.levels
  rw [hl] at hall
  exact List.forall_mem_cons.1 hall

theorem goes_answer (h : e.Spares spared) {outcome : Except Error Attempt}
    (hanswer : e.answer w outcome = some (w', e')) : Goes spared w w' e' := by
  unfold answer at hanswer
  split at hanswer
  · rename_i next levels hl
    obtain ⟨hnext, hlevels⟩ := spares_pop h hl
    cases hanswer
    exact ⟨.refl w, hnext _, hlevels⟩
  · rename_i c resolver next levels hl
    obtain ⟨hnext, hlevels⟩ := spares_pop h hl
    split at hanswer
    · cases hanswer
      exact ⟨.refl w, hnext _, hlevels⟩
    · rename_i outcome
      have hfinish := goes_finishProbe (w := w) (e := { e with levels }) ⟨h.focus, hlevels⟩
        resolver hnext outcome
      rw [Option.some.inj hanswer] at hfinish
      exact hfinish
  · rename_i u phase b earlier levels hl
    obtain ⟨-, hlevels⟩ := spares_pop h hl
    split at hanswer
    · cases hanswer
      exact ⟨.refl w, trivial, hlevels⟩
    · cases hanswer
      exact ⟨.refl w, trivial, hlevels⟩
    · cases hanswer
      exact ⟨.refl w, trivial, hlevels⟩
    · cases hanswer
      exact ⟨.refl w, trivial, hlevels⟩
  · cases hanswer

theorem Spares.step (h : e.Spares spared) (hbody : ∀ rule, (m.body rule).Spares spared) {pick : Nat}
    (hstep : e.step m pick w = some (w', e')) : Goes spared w w' e' := by
  have hfocus := h.focus
  unfold Evaluator.step at hstep
  split at hstep
  · rename_i next rest hw
    have hwrite := goes_write (m := m) (w := w) h next rest
    rw [Option.some.inj hstep] at hwrite
    exact hwrite
  · split at hstep
    · cases hstep
      exact ⟨.refl w, trivial, h.levels⟩
    · rename_i r next hf
      rw [hf] at hfocus
      refine goes_serve h hfocus.1 ?_ hstep
      exact hfocus.2
    · rename_i result hf
      have hclose := goes_close (w := w) h result
      rw [Option.some.inj hstep] at hclose
      exact hclose
    · rename_i r next hf
      rw [hf] at hfocus
      refine goes_serve h hfocus.1 ?_ hstep
      exact hfocus.2
    · rename_i u hf
      have henter := goes_enter (m := m) (w := w) h hbody u
      rw [Option.some.inj hstep] at henter
      exact henter
    · rename_i u hf
      have henter := goes_enter (m := m) (w := w.modifyScheduler e.home fun s =>
        s.stopWaiting e.id) h hbody u
      split at hstep
      · cases hstep
      · rw [Option.some.inj hstep] at henter
        refine ⟨World.Grows.trans (w.grows_of_buffer e.home ?_) henter.grows, henter.spares⟩
        exact fun _ => rfl
    · exact goes_passBarrier h hstep
    · exact goes_settle h hstep
    · exact goes_answer h hstep
    · cases hstep
    · cases hstep

end Evaluator

theorem Leads.grows {m : Model S} {w w' : World S} {e e' : Evaluator S α}
    (hl : Leads m w e w' e') (hbody : ∀ rule, (m.body rule).Spares spared) (h : e.Spares spared) :
    w.Grows spared w' := by
  induction hl with
  | refl w e => exact .refl w
  | step pick hstep _ ih =>
    have hgoes := h.step hbody hstep
    exact hgoes.grows.trans (ih hgoes.spares)

end Attribution.Engine
