import Attribution.Proofs.Engine.Solo
/-!
# Actions in sequence

An evaluator that carries out one action after another does what it would do for the
first alone, and then what it would do for the second alone (`Leads.exists_between`).
-/

namespace Attribution.Engine

variable {S : Schema} {α β : Type} (k : β → Action S α)

/-! ## What comes later -/

def Code.andThen : Code S β → Code S α
  | .body a => .body a
  | .top a => .top (a.bind k)

def Level.andThen : Level S β → Level S α
  | .running => .running
  | .attempted next => .attempted fun x => (next x).andThen k
  | .probed c resolver next => .probed c resolver fun x => (next x).andThen k
  | .helping u phase helped earlier => .helping u phase helped earlier

def Focus.andThen : Focus S β → Focus S α
  | .act code => .act (code.andThen k)
  | .enter u => .enter u
  | .blocked u => .blocked u
  | .barrier u phase => .barrier u phase
  | .closing result => .closing result
  | .answer outcome => .answer outcome
  | .done b => .act (.top (k b))
  | .crashed => .crashed

namespace Evaluator

def andThen (e : Evaluator S β) : Evaluator S α :=
  { id := e.id, home := e.home, worker := e.worker, frames := e.frames
    levels := e.levels.map (Level.andThen k), writes := e.writes, focus := e.focus.andThen k }

/-- The same state, but for what comes later. -/
def after (x : World S × Evaluator S β) : World S × Evaluator S α :=
  (x.1, x.2.andThen k)

variable {m : Model S} {w : World S} {e : Evaluator S β}

theorem reading_andThen : (e.andThen k).reading = e.reading := by
  unfold reading andThen
  rw [List.filterMap_map]
  congr 1
  funext l
  cases l with
  | _ => rfl

theorem view_andThen : (e.andThen k).view w = e.view w := by
  have hholds : (e.andThen k).holds = e.holds := by
    funext c
    unfold holds
    rw [reading_andThen]
    rfl
  unfold view
  rw [hholds]
  rfl

theorem write_andThen (next : Write S) (rest : List (Write S)) :
    (e.andThen k).write m w next rest = after k (e.write m w next rest) := by
  cases next with
  | force c v => rfl
  | notify c h v => rfl

theorem fail_andThen (d : Diagnostic) :
    (e.andThen k).fail m w d = after k (e.fail m w d) := by
  obtain ⟨_, _, _, _ | ⟨f, rest⟩, _, _, _⟩ := e
  · rfl
  · dsimp only [fail, andThen]
    rw [apply_ite (after k)]
    rfl

theorem fill_andThen (c : S.Key) (v : S.Val c) :
    (e.andThen k).fill w c v = after k (e.fill w c v) := by
  obtain ⟨_, _, _, _ | ⟨f, rest⟩, _, _, _⟩ := e
  · rfl
  · dsimp only [fill, andThen]
    rw [apply_ite (after k)]
    rfl

theorem startProbe_andThen (c : S.Key) (next : Except Error (Probe (S.Val c)) → Code S β) :
    (e.andThen k).startProbe w c (fun x => (next x).andThen k) =
      (e.startProbe w c next).andThen k := by
  unfold startProbe
  dsimp only
  split
  · rfl
  · rfl
  · rfl
  · rfl

theorem finishProbe_andThen (c : S.Key) (resolver : String)
    (next : Except Error (Probe (S.Val c)) → Code S β) (outcome : Attempt) :
    (e.andThen k).finishProbe w c resolver (fun x => (next x).andThen k) outcome =
      after k (e.finishProbe w c resolver next outcome) := by
  unfold finishProbe
  dsimp only
  split
  all_goals rfl

theorem serve_andThen (r : Request S) (next : r.Answer → Code S β) :
    (e.andThen k).serve m w r (fun x => (next x).andThen k) =
      (e.serve m w r next).map (after k) := by
  cases r with
  | env | register | resolveWith | addHook | attempt | force | soften | reset | report | note
  | crash => rfl
  | look =>
    simp only [serve, view_andThen]
    rfl
  | probe c => exact congrArg (fun x => some (w, x)) (startProbe_andThen k c next)
  | fill c v => exact congrArg some (fill_andThen k (e := e.resume (next ())) c v)
  | fail d => exact congrArg some (fail_andThen k (e := e.resume (next ())) d)
  | await ready =>
    simp only [serve]
    split
    · rfl
    · rfl

theorem enter_andThen (u : WorkUnit S.Rule) :
    (e.andThen k).enter m w u = after k (e.enter m w u) := by
  have hadmission : (e.andThen k).admission (w.scheduler (e.andThen k).home) u =
      e.admission (w.scheduler e.home) u := rfl
  unfold enter
  dsimp only
  rw [hadmission]
  cases e.admission (w.scheduler e.home) u with
  | reentered index =>
    dsimp only [andThen]
    rw [apply_ite (after k)]
    rfl
  | unknown | settled | behind | tooDeep | granted | busy => rfl
  | crossed status index =>
    cases status with
    | runningWillFail => rfl
    | _ =>
      dsimp only [andThen]
      split
      · rfl
      · rfl

theorem passBarrier_andThen (pick : Nat) (u : WorkUnit S.Rule) (phase : Phase) :
    (e.andThen k).passBarrier pick w u phase = (e.passBarrier pick w u phase).map (after k) := by
  unfold passBarrier
  dsimp only [andThen]
  split
  · rfl
  · split
    · rfl
    · split
      · rfl
      · rfl

theorem close_andThen (result : Except Error Unit) :
    (e.andThen k).close w result = after k (e.close w result) := by
  unfold close
  dsimp only [andThen]
  split
  · split
    · rfl
    · split
      · rfl
      · rfl
  · rfl

theorem settle_andThen (result : Except Error Unit) :
    (e.andThen k).settle w result = (e.settle w result).map (after k) := by
  obtain ⟨_, _, _, _ | ⟨f, frames⟩, _ | ⟨level, levels⟩, _, _⟩ := e
  · rfl
  · rfl
  · rfl
  · cases level with
    | _ => rfl

theorem answer_andThen (outcome : Except Error Attempt) :
    (e.andThen k).answer w outcome = (e.answer w outcome).map (after k) := by
  obtain ⟨i, home, worker, frames, _ | ⟨level, levels⟩, writes, focus⟩ := e
  · rfl
  · cases level with
    | running | attempted => rfl
    | probed c resolver next =>
      cases outcome with
      | error error => rfl
      | ok outcome =>
        exact congrArg some (finishProbe_andThen k
          (e := ⟨i, home, worker, frames, levels, writes, focus⟩) c resolver next outcome)
    | helping u phase b earlier =>
      cases outcome with
      | error error => rfl
      | ok outcome =>
        cases outcome with
        | _ => rfl

/-- The action that comes later has no part in a step before its turn. -/
theorem step_andThen (pick : Nat) (h : e.writes = [] →
      ∀ b, e.focus ≠ .act (.top (.pure b)) ∧ e.focus ≠ .done b) :
    (e.andThen k).step m pick w = (e.step m pick w).map (after k) := by
  obtain ⟨i, home, worker, frames, levels, _ | ⟨write, rest⟩, focus⟩ := e
  · cases focus with
    | act code =>
      cases code with
      | body a =>
        cases a with
        | pure result => exact congrArg some (close_andThen k result)
        | ask r next => exact serve_andThen k r fun x => .body (next x)
      | top a =>
        cases a with
        | pure b => exact absurd rfl (h rfl b).1
        | ask r next => exact serve_andThen k r fun x => .top (next x)
    | enter u => exact congrArg some (enter_andThen k u)
    | blocked u =>
      let e : Evaluator S β := ⟨i, home, worker, frames, levels, [], .blocked u⟩
      have hadmission : (e.andThen k).admission ((w.scheduler home).stopWaiting i) u =
          e.admission ((w.scheduler home).stopWaiting i) u := rfl
      have henter := enter_andThen k (m := m) (w := w.modifyScheduler home fun s => s.stopWaiting i)
        (e := e) u
      change (e.andThen k).step m pick w = (e.step m pick w).map (after k)
      unfold step
      dsimp only [e, andThen, Focus.andThen] at hadmission henter ⊢
      rw [hadmission, henter]
      cases Evaluator.admission _ _ u with
      | _ => rfl
    | barrier u phase => exact passBarrier_andThen k pick u phase
    | closing result => exact settle_andThen k result
    | answer outcome => exact answer_andThen k outcome
    | done b => exact absurd rfl (h rfl b).2
    | crashed => rfl
  · exact congrArg some (write_andThen k write rest)

end Evaluator

variable {k} {m : Model S} {w w' : World S}

theorem Leads.eq_of_pure {e e' : Evaluator S α} {x y : α} (hl : Leads m w e w' e')
    (hwrites : e.writes = []) (hfocus : e.focus = .act (.top (.pure x)) ∨ e.focus = .done x)
    (hgave : e'.Gave y) : y = x := by
  induction hl with
  | refl w e =>
    rcases hfocus with hfocus | hfocus
    · cases hfocus.symm.trans hgave.focus
    · cases hfocus.symm.trans hgave.focus
      rfl
  | step pick hstep _ ih =>
    rw [Evaluator.step, hwrites] at hstep
    rcases hfocus with hfocus | hfocus
    · rw [hfocus] at hstep
      cases hstep
      exact ih rfl (.inr rfl) hgave
    · rw [hfocus] at hstep
      cases hstep

theorem Gives.of_leads {J : Watch S} {home : SchedulerId} {a : Action S α}
    {Q : α → World S → List (Frame S) → Prop} (h : Gives m J home w [] a Q)
    {e e' : Evaluator S α} (hidle : e.Idle home) (hfocus : e.focus = .act (.top a))
    (hl : Leads m w e w' e') {x : α} (hgave : e'.Gave x) :
    Q x w' e'.frames ∧ e' = { e with frames := e'.frames, writes := [], focus := .done x } := by
  have hends := (h.watched hidle.home hidle.frames hidle.writes hfocus).ends
  have hfinal := (hends.of_leads (fun w _ ⟨y, _, he⟩ pick => ?_) hl).result
    (hgave.step_eq_none m 0 w')
  · obtain ⟨y, hy, he⟩ := hfinal
    have heq : y = x := by
      have hdone := hgave.focus
      rw [he] at hdone
      exact Focus.done.inj hdone
    subst heq
    exact ⟨hy, he⟩
  · rw [he]
    exact Evaluator.Gave.step_eq_none ⟨rfl, rfl⟩ m pick w

/-- **A run of two actions** is a run of the first and then a run of the second. -/
theorem Leads.exists_between {e : Evaluator S β} {e' : Evaluator S α} {x : α}
    (hl : Leads m w (e.andThen k) w' e') (hgave : e'.Gave x) :
    ∃ v d b, Leads m w e v d ∧ d.Gave b ∧ Leads m v (d.andThen k) w' e' := by
  generalize hd : e.andThen k = d at hl
  induction hl generalizing e with
  | refl w d =>
    have hfocus := hgave.focus
    rw [← hd] at hfocus
    change e.focus.andThen k = .done x at hfocus
    cases hf : e.focus with
    | _ =>
      rw [hf] at hfocus
      cases hfocus
  | @step w w₁ w' d d₁ e' pick hstep hrest ih =>
    by_cases hturn : e.writes = [] ∧ ∃ b, e.focus = .act (.top (.pure b)) ∨ e.focus = .done b
    · obtain ⟨hw, b, hf | hf⟩ := hturn
      · refine ⟨w, { e with focus := .done b }, b, .step pick ?_ (.refl _ _), ⟨rfl, hw⟩, ?_⟩
        · rw [Evaluator.step, hw, hf]
        · have heq : Evaluator.andThen k { e with focus := .done b } = d := by
            rw [← hd, Evaluator.andThen, Evaluator.andThen, hf]
            rfl
          rw [heq]
          exact .step pick hstep hrest
      · exact ⟨w, e, b, .refl w e, ⟨hf, hw⟩, hd ▸ .step pick hstep hrest⟩
    · rw [← hd, Evaluator.step_andThen k pick fun hw b =>
        ⟨fun hf => hturn ⟨hw, b, .inl hf⟩, fun hf => hturn ⟨hw, b, .inr hf⟩⟩,
        Option.map_eq_some_iff] at hstep
      obtain ⟨⟨v, e₁⟩, hstep, ⟨⟩⟩ := hstep
      obtain ⟨v, d, b, hl, hd⟩ := ih hgave rfl
      exact ⟨v, d, b, .step pick hstep hl, hd⟩

end Attribution.Engine
