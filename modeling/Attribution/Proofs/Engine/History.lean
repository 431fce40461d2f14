import Attribution.Proofs.Engine.Ends
/-!
# Histories

What an evaluation can be observed to do, step by step: values are written to
cells, hooks are called, units start, are entered again and end, and reads are
answered. `Evaluator.occurrences` says what the next step does, and a history
lists everything that was done, oldest first.

* `Traces` is a run that adds to a history;
* `Comes m P` says that every run ends in a state that satisfies `P` together
  with the history up to there;
* `History.Leaves` ties the history to the cells: at every moment a cell holds
  what was written to it last (`Traces.leaves`).
-/

namespace Attribution.Engine

variable {S : Schema} {α : Type}

instance (S : Schema) : DecidableEq S.Key := fun c d =>
  decidable_of_iff (S.order c d = .eq)
    ⟨Std.LawfulEqCmp.eq_of_compare, fun h => h ▸ Std.ReflCmp.compare_self⟩

/-- What may be observed. A read is by the unit on top of the stack, or by the
caller when there is none. The end of a run of a unit comes with its frame. -/
inductive Occurrence (S : Schema) where
  | hooked (c : S.Key) (h : S.Hook)
  | wrote (c : S.Key) (v : CellValue (S.Val c))
  | called (c : S.Key) (h : S.Hook) (v : S.Val c)
  | started (id : UnitId)
  | reentered (id : UnitId)
  | ended (f : Frame S) (result : Except Error Unit)
  | read (reader : Option UnitId) (c : S.Key) (v : S.Val c)
  | gave (c : S.Key) (result : Except Error (Probe (S.Val c)))
  | reported (d : Diagnostic)
  /-- Code changes the environment. -/
  | changed (f : S.Env → S.Env)

/-- Everything that was observed, oldest first. -/
abbrev History (S : Schema) := List (Occurrence S)

def World.demoting (w : World S) : List S.Key → History S
  | [] => []
  | c :: rest =>
    (match (w.cell c).value with
      | .forced v => [.wrote c (.soft v)]
      | _ => []) ++
    (w.modifyCell c fun cell => { cell with value := cell.value.softened }).demoting rest

namespace Evaluator

def reader? (e : Evaluator S α) : Option UnitId :=
  e.frames.head?.map fun f => f.unit.id

def serving (w : World S) (e : Evaluator S α) : Request S → History S
  | .addHook c h => [.hooked c h]
  | .resolveWith c _ | .reset c => [.wrote c .unset]
  | .soften c v => [.wrote c (.soft v)]
  | .fill c v =>
    match e.frames with
    | [] => []
    | f :: _ => if f.head.isSome || f.doomed then [.wrote c (.soft v)] else []
  | .env f => [.changed f]
  | .report d => [.reported d]
  | .fail d =>
    match e.frames with
    | [] => [.reported d]
    | f :: _ => if f.doomed then [] else [.reported d]
  | .probe c =>
    match (w.cell c).value, (w.cell c).resolver with
    | .forced v, _ | .soft v, none => [.read e.reader? c v]
    | _, _ => []
  | _ => []

def entering (s : Scheduler S.Rule) (e : Evaluator S α) (u : WorkUnit S.Rule) : History S :=
  match e.admission s u with
  | .granted => [.started u.id]
  | .reentered _ => if s.status? u.id = some .runningWillFail then [] else [.reentered u.id]
  | .crossed .runningWillFail _ => []
  | .crossed _ index => e.frames.reverse[index]?.toList.map fun f => .reentered f.unit.id
  | _ => []

def closing (w : World S) (e : Evaluator S α) : History S :=
  match e.frames with
  | [] => []
  | f :: _ => if f.doomed then [] else if f.head.isSome then w.demoting f.fills else []

/-- What the end of a read does. A sentinel is written in a step of its own. -/
def finishing (w : World S) (e : Evaluator S α) (c : S.Key) (outcome : Attempt) : History S :=
  match outcome, (w.cell c).value with
  | .failing, _ | .fail, .unset | .fail, .soft _ => [.read e.reader? c (S.sentinel c)]
  | .success, .unset => []
  | .provisional, .unset | .cycle, .unset =>
    [.wrote c (.soft (S.fallback c)), .read e.reader? c (S.fallback c)]
  | _, .forced v | _, .soft v => [.read e.reader? c v]

def occurrences (w : World S) (e : Evaluator S α) : History S :=
  match e.writes with
  | .force c v :: _ => [.wrote c (.forced v)]
  | .notify c h v :: _ => [.called c h v]
  | [] =>
    match e.focus with
    | .act (.top (.ask r _)) | .act (.body (.ask r _)) => e.serving w r
    | .act (.body (.pure (.ok ()))) => e.closing w
    | .enter u => e.entering (w.scheduler e.home) u
    | .blocked u => e.entering ((w.scheduler e.home).stopWaiting e.id) u
    | .closing result => e.frames.head?.toList.map (.ended · result)
    | .answer (.ok outcome) =>
      match e.levels with
      | .probed c _ _ :: _ => e.finishing w c outcome
      | _ => []
    | _ => []

theorem occurrences_of_request {w : World S} {e : Evaluator S α} {r : Request S}
    (h : e.request? = some r) : e.occurrences w = e.serving w r := by
  unfold request? at h
  split at h
  · rename_i hw hf
    cases h
    rw [occurrences, hw, hf]
  · rename_i hw hf
    cases h
    rw [occurrences, hw, hf]
  · cases h

end Evaluator

/-- A run, with the history before and after it. -/
inductive Traces (m : Model S) : History S → World S → Evaluator S α →
    History S → World S → Evaluator S α → Prop where
  | refl (log : History S) (w : World S) (e : Evaluator S α) : Traces m log w e log w e
  | step {log log' : History S} {w w' w'' : World S} {e e' e'' : Evaluator S α} (pick : Nat)
    (h : e.step m pick w = some (w', e'))
    (ht : Traces m (log ++ e.occurrences w) w' e' log' w'' e'') : Traces m log w e log' w'' e''

/-- Every run from here comes to a state that satisfies `P`, together with what
was observed until then. -/
inductive Comes (m : Model S) (P : History S → World S → Evaluator S α → Prop) :
    History S → World S → Evaluator S α → Prop where
  | here {log : History S} {w : World S} {e : Evaluator S α} (h : P log w e) : Comes m P log w e
  | step {log : History S} {w : World S} {e : Evaluator S α}
    (next : Nat → World S × Evaluator S α) (h : ∀ pick, e.step m pick w = some (next pick))
    (hn : ∀ pick, Comes m P (log ++ e.occurrences w) (next pick).1 (next pick).2) :
    Comes m P log w e

namespace Comes

variable {m : Model S} {P Q : History S → World S → Evaluator S α → Prop} {log log' : History S}
  {w w' : World S} {e e' : Evaluator S α}

theorem next (new : History S) (w' : World S) (e' : Evaluator S α)
    (h : ∀ pick, e.step m pick w = some (w', e')) (ho : e.occurrences w = new)
    (hn : Comes m P (log ++ new) w' e') : Comes m P log w e :=
  .step (fun _ => (w', e')) h fun _ => ho ▸ hn

theorem of_forall (h : ∀ pick, ∃ x, e.step m pick w = some x ∧
    Comes m P (log ++ e.occurrences w) x.1 x.2) : Comes m P log w e :=
  .step (fun pick => (h pick).choose) (fun pick => (h pick).choose_spec.1)
    fun pick => (h pick).choose_spec.2

theorem silent (w' : World S) (e' : Evaluator S α) (h : ∀ pick, e.step m pick w = some (w', e'))
    (ho : e.occurrences w = []) (hn : Comes m P log w' e') : Comes m P log w e :=
  .next [] w' e' h ho (by rw [List.append_nil]; exact hn)

theorem mono (h : Comes m P log w e) (hPQ : ∀ log w e, P log w e → Q log w e) :
    Comes m Q log w e := by
  induction h with
  | here h => exact .here (hPQ _ _ _ h)
  | step next h _ ih => exact .step next h ih

theorem of_traces (h : Comes m P log w e)
    (hfinal : ∀ log w e, P log w e → ∀ pick, e.step m pick w = none)
    (ht : Traces m log w e log' w' e') : Comes m P log' w' e' := by
  induction ht with
  | refl => exact h
  | step pick hstep _ ih =>
    apply ih
    cases h with
    | here h =>
      rw [hfinal _ _ _ h pick] at hstep
      cases hstep
    | step next hnext hn =>
      have heq := Option.some.inj ((hnext pick).symm.trans hstep)
      have hp := hn pick
      rw [heq] at hp
      exact hp

theorem result (h : Comes m P log w e) {pick : Nat} (hnone : e.step m pick w = none) :
    P log w e := by
  cases h with
  | here h => exact h
  | step next hnext _ =>
    rw [hnext pick] at hnone
    cases hnone

theorem exists_traces (h : Comes m P log w e) :
    ∃ log' w' e', Traces m log w e log' w' e' ∧ P log' w' e' := by
  induction h with
  | here h => exact ⟨_, _, _, .refl _ _ _, h⟩
  | step next hnext _ ih =>
    obtain ⟨log', w', e', ht, hP⟩ := ih 0
    exact ⟨log', w', e', .step 0 (hnext 0) ht, hP⟩

theorem ends (h : Comes m P log w e) : Ends m (fun w' e' => ∃ log', P log' w' e') w e := by
  induction h with
  | here h => exact .here ⟨_, h⟩
  | step next h _ ih => exact .step next h ih

end Comes

theorem Traces.trans {m : Model S} {log log' log'' : History S} {w w' w'' : World S}
    {e e' e'' : Evaluator S α} (h : Traces m log w e log' w' e')
    (h' : Traces m log' w' e' log'' w'' e'') : Traces m log w e log'' w'' e'' := by
  induction h with
  | refl => exact h'
  | step pick hstep _ ih => exact .step pick hstep (ih h')

theorem Traces.exists_append {m : Model S} {log log' : History S} {w w' : World S}
    {e e' : Evaluator S α} (h : Traces m log w e log' w' e') : ∃ new, log' = log ++ new := by
  induction h with
  | refl => exact ⟨[], (List.append_nil _).symm⟩
  | step pick hstep _ ih =>
    obtain ⟨new, rfl⟩ := ih
    exact ⟨_, List.append_assoc _ _ _⟩

namespace Evaluator

def watch (m : Model S) : Nat → World S → Evaluator S α → History S
  | 0, _, _ => []
  | limit + 1, w, e =>
    match e.step m 0 w with
    | some (w', e') => e.occurrences w ++ watch m limit w' e'
    | none => []

theorem traces_run (e : Evaluator S α) (m : Model S) (limit : Nat) (log : History S)
    (w : World S) :
    Traces m log w e (log ++ e.watch m limit w) (e.run m limit w).1 (e.run m limit w).2 := by
  induction limit generalizing e log w with
  | zero =>
    rw [watch, run, List.append_nil]
    exact .refl log w e
  | succ limit ih =>
    rw [watch, run]
    cases h : e.step m 0 w with
    | none =>
      rw [List.append_nil]
      exact .refl log w e
    | some next =>
      rw [← List.append_assoc]
      exact .step 0 h (ih next.2 _ next.1)

end Evaluator

/-! ## What cells hold -/

def History.Spares (log : History S) (c : S.Key) : Prop :=
  ∀ v, .wrote c v ∉ log

/-- Each cell holds what was written to it last, or what it held before. -/
def History.Leaves (log : History S) (w w' : World S) : Prop :=
  ∀ c, (log.Spares c ∧ (w'.cell c).value = (w.cell c).value) ∨
    ∃ before after, log = before ++ .wrote c (w'.cell c).value :: after ∧ History.Spares after c

namespace History

variable {log log' : History S} {w w' w'' : World S}

@[simp] theorem spares_nil (c : S.Key) : History.Spares ([] : History S) c :=
  fun _ => List.not_mem_nil

theorem spares_append {c : S.Key} : (log ++ log').Spares c ↔ log.Spares c ∧ log'.Spares c := by
  simp only [Spares, List.mem_append, not_or, forall_and]

theorem Leaves.of_same (hw : ∀ c, (w'.cell c).value = (w.cell c).value)
    (hlog : ∀ c, log.Spares c) : log.Leaves w w' :=
  fun c => .inl ⟨hlog c, hw c⟩

theorem Leaves.trans (h : log.Leaves w w') (h' : log'.Leaves w' w'') :
    (log ++ log').Leaves w w'' := by
  intro c
  rcases h' c with ⟨hnone, heq⟩ | ⟨before, after, rfl, hafter⟩
  · rcases h c with ⟨hnone', heq'⟩ | ⟨before, after, hlog, hafter⟩
    · exact .inl ⟨spares_append.2 ⟨hnone', hnone⟩, heq.trans heq'⟩
    · refine .inr ⟨before, after ++ log', ?_, spares_append.2 ⟨hafter, hnone⟩⟩
      rw [hlog, heq, List.append_assoc]
      rfl
  · exact .inr ⟨log ++ before, after, by rw [List.append_assoc], hafter⟩

theorem leaves_wrote {c : S.Key} {v : CellValue (S.Val c)} (hc : (w'.cell c).value = v)
    (hne : ∀ d, c ≠ d → (w'.cell d).value = (w.cell d).value) :
    Leaves [.wrote c v] w w' := by
  intro d
  by_cases h : c = d
  · subst h
    exact .inr ⟨[], [], by rw [hc]; rfl, spares_nil c⟩
  · refine .inl ⟨fun x hx => h ?_, hne d h⟩
    cases List.mem_singleton.1 hx
    rfl

theorem leaves_setValue (w : World S) (c : S.Key) (v : CellValue (S.Val c)) :
    Leaves [.wrote c v] w (w.setValue c v) :=
  leaves_wrote (by rw [w.cell_setValue_self]) fun d h => by rw [w.cell_setValue_ne v h]

end History

namespace Evaluator

open History

variable {m : Model S} {pick : Nat} {w w' : World S} {e e' : Evaluator S α}

private theorem spares_entering (s : Scheduler S.Rule) (u : WorkUnit S.Rule) (c : S.Key) :
    (e.entering s u).Spares c := by
  intro v hv
  unfold entering at hv
  repeat' split at hv
  all_goals simp at hv

private theorem cells_enter (m : Model S) (w : World S) (u : WorkUnit S.Rule) :
    (e.enter m w u).1.cells = w.cells := by
  unfold enter
  dsimp only
  repeat' split
  all_goals rfl

private theorem leaves_fill (code : Code S α) (c : S.Key) (v : S.Val c) :
    (e.serving w (.fill c v)).Leaves w ((e.resume code).fill w c v).1 := by
  unfold fill serving
  simp only [resume]
  cases e.frames with
  | nil => exact .of_same (fun _ => rfl) spares_nil
  | cons f rest =>
    dsimp only
    cases f.head.isSome || f.doomed with
    | true => exact leaves_setValue w c (.soft v)
    | false => exact .of_same (fun _ => rfl) spares_nil

private theorem leaves_reset (origin : Option Nat) (c : S.Key) :
    Leaves [.wrote c .unset] w (w.reset origin c) := by
  by_cases ht : ∃ u, (w.cell c).resolver = some u ∧
      (w.unitStatus? u).any Status.isTerminal = true
  · obtain ⟨u, hu, ht⟩ := ht
    rw [w.reset_eq_of_settled origin hu ht]
    refine leaves_wrote ?_ fun d h => ?_
    · change (World.cell (World.modifyCell _ c _) c).value = _
      rw [World.cell_modifyCell_self, World.cell_modifyScheduler, w.cell_setValue_self]
    · change (World.cell (World.modifyCell _ c _) d).value = _
      rw [World.cell_modifyCell_ne _ _ h, World.cell_modifyScheduler, w.cell_setValue_ne _ h]
  · rw [w.reset_eq_of_unsettled origin c fun u hu => Bool.eq_false_iff.2 fun h => ht ⟨u, hu, h⟩]
    exact leaves_setValue w c .unset

private theorem leaves_serve {r : Request S} {next : r.Answer → Code S α}
    (h : e.serve m w r next = some (w', e')) : (e.serving w r).Leaves w w' := by
  have hsame : w'.cells = w.cells → (∀ c, (e.serving w r).Spares c) →
      (e.serving w r).Leaves w w' :=
    fun hw hlog => .of_same (fun c => by rw [World.cell, hw]; rfl) hlog
  cases r with
  | env =>
    cases h
    exact hsame rfl fun c v hv => by simp [serving] at hv
  | look | register | attempt | force | note | crash =>
    cases h
    exact hsame rfl spares_nil
  | resolveWith c u =>
    cases h
    refine leaves_wrote ?_ fun d hd => ?_
    · rw [World.resolveWith, World.cell_modifyCell_self]
    · rw [World.resolveWith, World.cell_modifyCell_ne _ _ hd]
  | addHook c hook =>
    cases h
    refine .of_same (fun d => ?_) fun d v hv => by simp [serving] at hv
    by_cases hd : c = d
    · subst hd
      rw [World.addHook, World.cell_modifyCell_self]
    · rw [World.addHook, World.cell_modifyCell_ne _ _ hd]
  | probe c =>
    cases h
    refine .of_same (fun _ => rfl) fun d v hv => ?_
    unfold serving at hv
    dsimp only at hv
    split at hv
    all_goals simp at hv
  | fill c v =>
    have hfill := leaves_fill (e := e) (w := w) (next ()) c v
    rw [Option.some.inj h] at hfill
    exact hfill
  | soften c v =>
    cases h
    exact leaves_setValue w c (.soft v)
  | reset c =>
    cases h
    exact leaves_reset e.worker c
  | fail d =>
    have h := Option.some.inj h
    refine hsame ?_ fun c v hv => ?_
    · rw [show w' = ((e.resume (next ())).fail m w d).1 from by rw [h]]
      unfold fail World.report
      dsimp only
      repeat' split
      all_goals rfl
    · unfold serving at hv
      dsimp only at hv
      repeat' split at hv
      all_goals simp at hv
  | report d =>
    cases h
    refine hsame ?_ fun c v hv => by simp [serving] at hv
    unfold World.report
    dsimp only
    split
    all_goals rfl
  | await ready =>
    simp only [serve] at h
    split at h
    · cases h
      exact hsame rfl spares_nil
    · cases h

private theorem leaves_foldl_softened (w : World S) (cells : List S.Key) :
    (w.demoting cells).Leaves w (cells.foldl (fun w c => w.modifyCell c fun cell =>
      { cell with value := cell.value.softened }) w) := by
  induction cells generalizing w with
  | nil => exact .of_same (fun _ => rfl) spares_nil
  | cons c rest ih =>
    refine Leaves.trans ?_ (ih _)
    have hother : ∀ d, c ≠ d → ((w.modifyCell c fun cell =>
        { cell with value := cell.value.softened }).cell d).value = (w.cell d).value :=
      fun d hd => by rw [World.cell_modifyCell_ne _ _ hd]
    cases hv : (w.cell c).value with
    | forced v => exact leaves_wrote (by rw [World.cell_modifyCell_self, hv]; rfl) hother
    | unset | soft v =>
      refine .of_same (fun d => ?_) spares_nil
      by_cases hd : c = d
      · subst hd
        rw [World.cell_modifyCell_self, hv]
        rfl
      · exact hother d hd

private theorem leaves_close (hw : e.writes = []) {result : Except Error Unit}
    (hf : e.focus = .act (.body (.pure result))) :
    (e.occurrences w).Leaves w (e.close w result).1 := by
  unfold close occurrences
  rw [hw, hf]
  cases result with
  | error x =>
    cases e.frames with
    | nil | cons => exact .of_same (fun _ => rfl) spares_nil
  | ok _ =>
    simp only [closing]
    cases e.frames with
    | nil => exact .of_same (fun _ => rfl) spares_nil
    | cons f rest =>
      dsimp only
      cases f.doomed with
      | true => exact .of_same (fun _ => rfl) spares_nil
      | false =>
        cases f.head.isSome with
        | true => exact leaves_foldl_softened w f.fills
        | false => exact .of_same (fun _ => rfl) spares_nil

private theorem leaves_finishProbe (levels : List (Level S α)) (c : S.Key) (resolver : String)
    (next : Except Error (Probe (S.Val c)) → Code S α) (outcome : Attempt) :
    (e.finishing w c outcome).Leaves w
      (({ e with levels }).finishProbe w c resolver next outcome).1 := by
  have hread : ∀ reader v, History.Leaves [.read reader c v] w w :=
    fun reader v => .of_same (fun _ => rfl) fun d x hx => by simp at hx
  have hfallback : ∀ (reader : Option UnitId) (w' : World S),
      w'.cells = (w.setValue c (.soft (S.fallback c))).cells →
      History.Leaves [.wrote c (.soft (S.fallback c)), .read reader c (S.fallback c)] w w' := by
    intro reader w' hw'
    have hafter : History.Leaves [.read reader c (S.fallback c)]
        (w.setValue c (.soft (S.fallback c))) w' :=
      .of_same (fun d => by rw [World.cell, hw']; rfl) fun d x hx => by simp at hx
    exact (leaves_setValue w c _).trans hafter
  unfold finishProbe finishing
  cases outcome <;> cases (w.cell c).value
  case success.unset => exact .of_same (fun _ => rfl) spares_nil
  case provisional.unset => exact hfallback _ _ rfl
  case cycle.unset => exact hfallback _ _ rfl
  all_goals exact hread _ _

/-- **One step.** A step leaves in every cell what it is seen to write there. -/
theorem leaves_of_step (h : e.step m pick w = some (w', e')) : (e.occurrences w).Leaves w w' := by
  have hsame : w'.cells = w.cells → (∀ c, (e.occurrences w).Spares c) →
      (e.occurrences w).Leaves w w' :=
    fun hw hlog => .of_same (fun c => by rw [World.cell, hw]; rfl) hlog
  unfold step at h
  split at h
  · rename_i next rest hw
    have h := Option.some.inj h
    unfold occurrences
    rw [hw, show w' = (e.write m w next rest).1 from by rw [h]]
    cases next with
    | force c v => exact leaves_setValue w c (.forced v)
    | notify c hook v => exact .of_same (fun _ => rfl) fun d x hx => by simp at hx
  · rename_i hw
    split at h
    · rename_i a hf
      cases h
      exact hsame rfl fun c => by simp [occurrences, hw, hf]
    · rename_i r next hf
      have hs := leaves_serve h
      simpa [occurrences, hw, hf] using hs
    · rename_i result hf
      have hc := leaves_close (w := w) hw hf
      rw [Option.some.inj h] at hc
      exact hc
    · rename_i r next hf
      have hs := leaves_serve h
      simpa [occurrences, hw, hf] using hs
    · rename_i u hf
      have h := Option.some.inj h
      refine hsame ?_ fun c => ?_
      · rw [← cells_enter m w u (e := e), h]
      · simp only [occurrences, hw, hf]
        exact spares_entering _ u c
    · rename_i u hf
      have hspares : ∀ c, (e.occurrences w).Spares c := fun c => by
        simp only [occurrences, hw, hf]
        exact spares_entering _ u c
      split at h
      · cases h
      · have h := Option.some.inj h
        refine hsame ?_ hspares
        rw [show w' = _ from (congrArg Prod.fst h).symm, cells_enter]
        rfl
    · rename_i u phase hf
      refine hsame ?_ fun c => by simp [occurrences, hw, hf]
      unfold passBarrier at h
      dsimp only at h
      repeat' split at h
      all_goals first
        | (cases h; done)
        | (cases h; rfl)
    · rename_i result hf
      refine hsame ?_ fun c v hv => ?_
      · unfold settle at h
        split at h
        · cases h
          rfl
        · cases h
      · simp only [occurrences, hw, hf, List.mem_map] at hv
        obtain ⟨f, -, hv⟩ := hv
        cases hv
    · rename_i outcome hf
      unfold answer at h
      split at h
      · rename_i next levels hl
        cases h
        refine hsame rfl fun c => ?_
        cases outcome with
        | error | ok => simp [occurrences, hw, hf, hl]
      · rename_i c resolver next levels hl
        split at h
        · cases h
          exact hsame rfl fun c => by simp [occurrences, hw, hf]
        · rename_i outcome
          have hp := leaves_finishProbe (e := e) (w := w) levels c resolver next outcome
          rw [Option.some.inj h] at hp
          simpa [occurrences, hw, hf, hl] using hp
      · rename_i u phase b earlier levels hl
        split at h
        all_goals
          cases h
          exact hsame rfl fun c => by simp [occurrences, hw, hf, hl]
      · cases h
    · cases h
    · cases h

end Evaluator

/-- **A run.** At every moment a cell holds what was written to it last. -/
theorem Traces.leaves {m : Model S} {log log' : History S} {w w' : World S}
    {e e' : Evaluator S α} (h : Traces m log w e log' w' e') :
    ∃ new, log' = log ++ new ∧ new.Leaves w w' := by
  induction h with
  | refl => exact ⟨[], (List.append_nil _).symm, .of_same (fun _ => rfl) fun c => History.spares_nil c⟩
  | step pick hstep _ ih =>
    obtain ⟨new, rfl, hnew⟩ := ih
    exact ⟨_, List.append_assoc _ _ _, (Evaluator.leaves_of_step hstep).trans hnew⟩

end Attribution.Engine
