import Attribution.Engine.Run
import Attribution.Proofs.Engine.Move
/-!
# Runs that come to an end

`Ends m P w e` says that a run of the evaluator `e` comes to a state that
satisfies `P`, whatever is picked at its barriers; `Watched m J P w e` says so
too, and that on the way everything is as the watch `J` has it. What code does
is specified by `Gives`, and what asking for a unit does by `Answers`; both speak
of the world and of the stack only, so a specification serves whoever uses the
code. There is one rule for each request and for each way of entering a unit.
-/

namespace Attribution.Engine

variable {S : Schema} {α β γ : Type}

/-- Every run from here comes to a state that satisfies `P`. -/
inductive Ends (m : Model S) (P : World S → Evaluator S α → Prop) :
    World S → Evaluator S α → Prop where
  | here {w : World S} {e : Evaluator S α} (h : P w e) : Ends m P w e
  | step {w : World S} {e : Evaluator S α} (next : Nat → World S × Evaluator S α)
    (h : ∀ pick, e.step m pick w = some (next pick))
    (hn : ∀ pick, Ends m P (next pick).1 (next pick).2) : Ends m P w e

inductive Leads (m : Model S) : World S → Evaluator S α → World S → Evaluator S α → Prop where
  | refl (w : World S) (e : Evaluator S α) : Leads m w e w e
  | step {w w' w'' : World S} {e e' e'' : Evaluator S α} (pick : Nat)
    (h : e.step m pick w = some (w', e')) (hl : Leads m w' e' w'' e'') : Leads m w e w'' e''

theorem Evaluator.leads_run (m : Model S) (limit : Nat) (w : World S) (e : Evaluator S α) :
    Leads m w e (e.run m limit w).1 (e.run m limit w).2 := by
  induction limit generalizing w e with
  | zero => exact .refl w e
  | succ limit ih =>
    rw [run]
    split
    · rename_i hstep
      exact .step 0 hstep (ih _ _)
    · exact .refl w e

namespace Ends

variable {m : Model S} {P Q : World S → Evaluator S α → Prop} {w w' : World S}
  {e e' : Evaluator S α}

theorem mono (h : Ends m P w e) (hPQ : ∀ w e, P w e → Q w e) : Ends m Q w e := by
  induction h with
  | here h => exact .here (hPQ _ _ h)
  | step next h _ ih => exact .step next h ih

theorem of_leads (h : Ends m P w e) (hfinal : ∀ w e, P w e → ∀ pick, e.step m pick w = none)
    (hl : Leads m w e w' e') : Ends m P w' e' := by
  induction hl with
  | refl => exact h
  | step pick hstep _ ih =>
    apply ih
    cases h with
    | here h =>
      rw [hfinal _ _ h pick] at hstep
      cases hstep
    | step next hnext hn =>
      have heq := Option.some.inj ((hnext pick).symm.trans hstep)
      have hp := hn pick
      rw [heq] at hp
      exact hp

theorem result (h : Ends m P w e) {pick : Nat} (hnone : e.step m pick w = none) : P w e := by
  cases h with
  | here h => exact h
  | step next hnext _ =>
    rw [hnext pick] at hnone
    cases hnone

theorem and (h : Ends m P w e) (h' : Ends m Q w e)
    (hP : ∀ w e, P w e → ∀ pick, e.step m pick w = none)
    (hQ : ∀ w e, Q w e → ∀ pick, e.step m pick w = none) :
    Ends m (fun w e => P w e ∧ Q w e) w e := by
  induction h with
  | here h => exact .here ⟨h, h'.result (hP _ _ h 0)⟩
  | step next hnext _ ih =>
    refine .step next hnext fun pick => ih pick ?_
    exact h'.of_leads hQ (.step pick (hnext pick) (.refl _ _))

theorem exists_leads (h : Ends m P w e) : ∃ w' e', Leads m w e w' e' ∧ P w' e' := by
  induction h with
  | here h => exact ⟨_, _, .refl _ _, h⟩
  | step next hnext _ ih =>
    obtain ⟨w', e', hl, hP⟩ := ih 0
    exact ⟨w', e', .step 0 (hnext 0) hl, hP⟩

/-- A run that ends does not crash on the way. -/
theorem not_crashed (h : Ends m P w e) (hP : ∀ w e, P w e → e.focus ≠ .crashed) :
    e.focus ≠ .crashed := by
  induction h with
  | here h => exact hP _ _ h
  | @step w e next hnext _ ih =>
    intro hcrashed
    have hstep := hnext 0
    unfold Evaluator.step at hstep
    rw [hcrashed] at hstep
    cases hwrites : e.writes with
    | nil =>
      rw [hwrites] at hstep
      cases hstep
    | cons write rest =>
      rw [hwrites] at hstep
      apply ih 0
      rw [← Option.some.inj hstep]
      cases write with
      | force c v => exact hcrashed
      | notify c hook v => exact hcrashed

end Ends

/-! ## Watches -/

/-- What is to be the case along a run: where code reads a cell, where a unit is
entered, and where the run of a unit has ended and is about to be settled. -/
structure Watch (S : Schema) where
  reads : World S → List (Frame S) → S.Key → Prop
  enters : World S → List (Frame S) → WorkUnit S.Rule → Prop
  leaves : World S → Frame S → Except Error Unit → Prop

structure Watch.Allows (J : Watch S) (w : World S) (e : Evaluator S α) : Prop where
  reads : ∀ c, e.request? = some (.probe c) → J.reads w e.frames c
  enters : ∀ u, e.writes = [] → e.focus = .enter u → J.enters w e.frames u
  leaves : ∀ result f rest, e.writes = [] → e.focus = .closing result → e.frames = f :: rest →
    J.leaves w f result

theorem Evaluator.exists_act_of_request? {e : Evaluator S α} {r : Request S}
    (h : e.request? = some r) : ∃ code, e.focus = .act code := by
  unfold request? at h
  split at h
  · exact ⟨_, ‹_›⟩
  · exact ⟨_, ‹_›⟩
  · cases h

theorem Evaluator.request?_eq_none {e : Evaluator S α} (h : ∀ code, e.focus ≠ .act code) :
    e.request? = none := by
  cases hr : e.request? with
  | none => rfl
  | some r =>
    obtain ⟨code, hcode⟩ := e.exists_act_of_request? hr
    exact absurd hcode (h code)

namespace Watch

variable {J : Watch S} {w : World S} {e : Evaluator S α}

theorem allows_request {r : Request S} (hr : e.request? = some r)
    (h : ∀ c, r = .probe c → J.reads w e.frames c) : J.Allows w e := by
  obtain ⟨code, hfocus⟩ := e.exists_act_of_request? hr
  refine ⟨fun c hc => h c (Option.some.inj (hr.symm.trans hc)), fun u _ hu => ?_,
    fun result f rest _ hclosing _ => ?_⟩
  · rw [hfocus] at hu
    cases hu
  · rw [hfocus] at hclosing
    cases hclosing

theorem allows_write {x : Write S} {rest : List (Write S)} (h : e.writes = x :: rest) :
    J.Allows w e := by
  refine ⟨fun c hc => ?_, fun u hw _ => ?_, fun _ _ _ hw _ _ => ?_⟩
  · unfold Evaluator.request? at hc
    rw [h] at hc
    cases hc
  · rw [h] at hw
    cases hw
  · rw [h] at hw
    cases hw

theorem allows_quiet (hr : e.request? = none) (henter : ∀ u, e.focus ≠ .enter u)
    (hclosing : ∀ result, e.focus ≠ .closing result) : J.Allows w e := by
  refine ⟨fun c hc => ?_, fun u _ hu => absurd hu (henter u),
    fun result _ _ _ hresult _ => absurd hresult (hclosing result)⟩
  rw [hr] at hc
  cases hc

theorem allows_answer {outcome : Except Error Attempt} (h : e.focus = .answer outcome) :
    J.Allows w e := by
  refine allows_quiet (Evaluator.request?_eq_none fun code => ?_) ?_ ?_
  all_goals
    rw [h]
    exact nofun

theorem allows_barrier {u : WorkUnit S.Rule} {phase : Phase} (h : e.focus = .barrier u phase) :
    J.Allows w e := by
  refine allows_quiet (Evaluator.request?_eq_none fun code => ?_) ?_ ?_
  all_goals
    rw [h]
    exact nofun

theorem allows_enter {u : WorkUnit S.Rule} (hfocus : e.focus = .enter u)
    (h : J.enters w e.frames u) : J.Allows w e := by
  refine ⟨fun c hc => ?_, fun v _ hv => ?_, fun result _ _ _ hresult _ => ?_⟩
  · obtain ⟨code, hcode⟩ := e.exists_act_of_request? hc
    rw [hfocus] at hcode
    cases hcode
  · rw [hfocus] at hv
    cases hv
    exact h
  · rw [hfocus] at hresult
    cases hresult

theorem allows_closing {f : Frame S} {rest : List (Frame S)} {result : Except Error Unit}
    (hfocus : e.focus = .closing result) (hframes : e.frames = f :: rest)
    (h : J.leaves w f result) : J.Allows w e := by
  refine ⟨fun c hc => ?_, fun u _ hu => ?_, fun result' f' rest' _ hresult hf' => ?_⟩
  · obtain ⟨code, hcode⟩ := e.exists_act_of_request? hc
    rw [hfocus] at hcode
    cases hcode
  · rw [hfocus] at hu
    cases hu
  · rw [hfocus] at hresult
    rw [hframes] at hf'
    cases hresult
    cases hf'
    exact h

end Watch

/-- Every run from here comes to a state that satisfies `P`, and the watch allows
all steps on the way. -/
inductive Watched (m : Model S) (J : Watch S) (P : World S → Evaluator S α → Prop) :
    World S → Evaluator S α → Prop where
  | here {w : World S} {e : Evaluator S α} (h : P w e) : Watched m J P w e
  | step {w : World S} {e : Evaluator S α} (ha : J.Allows w e)
    (next : Nat → World S × Evaluator S α) (h : ∀ pick, e.step m pick w = some (next pick))
    (hn : ∀ pick, Watched m J P (next pick).1 (next pick).2) : Watched m J P w e

namespace Watched

variable {m : Model S} {J : Watch S} {P Q : World S → Evaluator S α → Prop} {w w' : World S}
  {e e' : Evaluator S α}

theorem next (ha : J.Allows w e) (w' : World S) (e' : Evaluator S α)
    (h : ∀ pick, e.step m pick w = some (w', e')) (hn : Watched m J P w' e') :
    Watched m J P w e :=
  .step ha (fun _ => (w', e')) h fun _ => hn

theorem of_forall (ha : J.Allows w e)
    (h : ∀ pick, ∃ x, e.step m pick w = some x ∧ Watched m J P x.1 x.2) : Watched m J P w e :=
  .step ha (fun pick => (h pick).choose) (fun pick => (h pick).choose_spec.1)
    fun pick => (h pick).choose_spec.2

theorem trans (h : Watched m J P w e) (hPQ : ∀ w e, P w e → Watched m J Q w e) :
    Watched m J Q w e := by
  induction h with
  | here h => exact hPQ _ _ h
  | step ha next h _ ih => exact .step ha next h ih

theorem mono (h : Watched m J P w e) (hPQ : ∀ w e, P w e → Q w e) : Watched m J Q w e :=
  h.trans fun w e hP => .here (hPQ w e hP)

theorem ends (h : Watched m J P w e) : Ends m P w e := by
  induction h with
  | here h => exact .here h
  | step _ next h _ ih => exact .step next h ih

theorem allows_of_leads (h : Watched m J P w e)
    (hfinal : ∀ w e, P w e → (∀ pick, e.step m pick w = none) ∧ J.Allows w e)
    (hl : Leads m w e w' e') : J.Allows w' e' := by
  induction hl with
  | refl =>
    cases h with
    | here h => exact (hfinal _ _ h).2
    | step ha => exact ha
  | step pick hstep _ ih =>
    apply ih
    cases h with
    | here h =>
      rw [(hfinal _ _ h).1 pick] at hstep
      cases hstep
    | step _ next hnext hn =>
      have heq := Option.some.inj ((hnext pick).symm.trans hstep)
      have hp := hn pick
      rw [heq] at hp
      exact hp

end Watched

/-! ## Code in its place -/

/-- A place for an action: its requests are answered there. -/
def Serves (into : Action S β → Code S α) : Prop :=
  ∀ (e : Evaluator S α) (r : Request S) (next : r.Answer → Action S β), e.writes = [] →
    e.focus = .act (into (.ask r next)) → e.request? = some r ∧
      ∀ (m : Model S) (pick : Nat) (w : World S),
        e.step m pick w = e.serve m w r fun x => into (next x)

theorem serves_top : Serves (Code.top : Action S α → Code S α) := by
  intro e r next hw hf
  refine ⟨?_, fun m pick w => ?_⟩
  · rw [Evaluator.request?, hw, hf]
  · rw [Evaluator.step, hw, hf]

theorem serves_body : Serves (Code.body : Action S (Except Error Unit) → Code S α) := by
  intro e r next hw hf
  refine ⟨?_, fun m pick w => ?_⟩
  · rw [Evaluator.request?, hw, hf]
  · rw [Evaluator.step, hw, hf]

theorem Serves.bind {into : Action S γ → Code S α} (h : Serves into) (k : β → Action S γ) :
    Serves fun a : Action S β => into (a.bind k) :=
  fun e r next hw hf => h e r (fun x => (next x).bind k) hw hf

variable (m : Model S) (J : Watch S) (home : SchedulerId)

/-- The action comes to its end, and `Q` holds of its result, of the world and
of the stack. -/
def Gives (w : World S) (frames : List (Frame S)) (a : Action S β)
    (Q : β → World S → List (Frame S) → Prop) : Prop :=
  ∀ ⦃α : Type⦄ (into : Action S β → Code S α) (e : Evaluator S α), Serves into →
    e.home = home → e.frames = frames → e.writes = [] → e.focus = .act (into a) →
    Watched m J (fun w' e' => ∃ x, Q x w' e'.frames ∧
      e' = { e with frames := e'.frames, writes := [], focus := .act (into (.pure x)) }) w e

/-- What an evaluator may be after: a unit, or a way past the units that come
before the unit's phase. -/
inductive Demand (S : Schema) where
  | unit (u : WorkUnit S.Rule)
  | past (u : WorkUnit S.Rule) (phase : Phase)

def Demand.focus : Demand S → Focus S α
  | .unit u => .enter u
  | .past u phase => .barrier u phase

/-- The demand is answered, and `Q` holds of the answer, of the world and of the
stack. -/
def Answers (w : World S) (frames : List (Frame S)) (d : Demand S)
    (Q : Except Error Attempt → World S → List (Frame S) → Prop) : Prop :=
  ∀ ⦃α : Type⦄ (e : Evaluator S α), e.home = home → e.frames = frames → e.writes = [] →
    e.focus = d.focus →
    Watched m J (fun w' e' => ∃ r, Q r w' e'.frames ∧
      e' = { e with frames := e'.frames, writes := [], focus := .answer r }) w e

variable {m J home} {w w' : World S} {frames frames' : List (Frame S)}

theorem gives_pure {x : β} {Q : β → World S → List (Frame S) → Prop} (h : Q x w frames) :
    Gives m J home w frames (.pure x) Q := by
  intro α into e _ _ hframes hwrites hfocus
  refine .here ⟨x, hframes ▸ h, ?_⟩
  rw [← hfocus, ← hwrites]

theorem gives_bind {a : Action S β} {k : β → Action S γ}
    {Q : γ → World S → List (Frame S) → Prop}
    (h : Gives m J home w frames a fun x w' frames' => Gives m J home w' frames' (k x) Q) :
    Gives m J home w frames (a.bind k) Q := by
  intro α into e hinto hhome hframes hwrites hfocus
  refine (h (fun b => into (b.bind k)) e (hinto.bind k) hhome hframes hwrites hfocus).trans ?_
  rintro w' e' ⟨x, hx, he'⟩
  have hfocus' : e'.focus = .act (into (k x)) := by rw [he']; rfl
  have hhome' : e'.home = home := by rw [he']; exact hhome
  have hwrites' : e'.writes = [] := by rw [he']
  refine (hx into e' hinto hhome' rfl hwrites' hfocus').mono ?_
  rintro w'' e'' ⟨y, hy, he''⟩
  refine ⟨y, hy, ?_⟩
  rw [he'', he']

theorem Gives.mono {a : Action S β} {Q Q' : β → World S → List (Frame S) → Prop}
    (h : Gives m J home w frames a Q) (hQ : ∀ x w frames, Q x w frames → Q' x w frames) :
    Gives m J home w frames a Q' := by
  intro α into e hinto hhome hframes hwrites hfocus
  refine (h into e hinto hhome hframes hwrites hfocus).mono ?_
  rintro w' e' ⟨x, hx, he'⟩
  exact ⟨x, hQ _ _ _ hx, he'⟩

theorem Answers.mono {d : Demand S} {Q Q' : Except Error Attempt → World S → List (Frame S) → Prop}
    (h : Answers m J home w frames d Q) (hQ : ∀ x w frames, Q x w frames → Q' x w frames) :
    Answers m J home w frames d Q' := by
  intro α e hhome hframes hwrites hfocus
  refine (h e hhome hframes hwrites hfocus).mono ?_
  rintro w' e' ⟨x, hx, he'⟩
  exact ⟨x, hQ _ _ _ hx, he'⟩

theorem Gives.watched {a : Action S α} {Q : α → World S → List (Frame S) → Prop}
    (h : Gives m J home w frames a Q) {e : Evaluator S α} (hhome : e.home = home)
    (hframes : e.frames = frames) (hwrites : e.writes = []) (hfocus : e.focus = .act (.top a)) :
    Watched m J (fun w' e' => ∃ x, Q x w' e'.frames ∧
      e' = { e with frames := e'.frames, writes := [], focus := .done x }) w e := by
  refine (h .top e serves_top hhome hframes hwrites hfocus).trans ?_
  rintro w' e' ⟨x, hx, he'⟩
  refine .next (Watch.allows_quiet ?_ ?_ ?_) w' { e' with focus := .done x } (fun pick => ?_)
    (.here ⟨x, hx, ?_⟩)
  · rw [he']
    rfl
  · rw [he']
    exact nofun
  · rw [he']
    exact nofun
  · rw [he', Evaluator.step]
  · rw [he']

/-! ## Requests -/

theorem gives_ask {r : Request S} {next : r.Answer → Action S β}
    {Q : β → World S → List (Frame S) → Prop}
    (hJ : ∀ c, r = .probe c → J.reads w frames c)
    (h : ∀ {α : Type} (e : Evaluator S α) (code : r.Answer → Code S α), e.home = home →
      e.frames = frames → e.writes = [] → ∃ x w' frames',
        e.serve m w r code = some (w', { e with frames := frames', focus := .act (code x) }) ∧
        Gives m J home w' frames' (next x) Q) : Gives m J home w frames (.ask r next) Q := by
  intro α into e hinto hhome hframes hwrites hfocus
  obtain ⟨x, w', frames', hserve, hnext⟩ := h e (fun x => into (next x)) hhome hframes hwrites
  obtain ⟨hrequest, hstep⟩ := hinto e r next hwrites hfocus
  refine .next (Watch.allows_request hrequest (by rw [hframes]; exact hJ)) _ _
    (fun pick => (hstep m pick w).trans hserve) ?_
  exact hnext into { e with frames := frames', focus := .act (into (next x)) } hinto hhome rfl
    hwrites rfl

variable {Q : β → World S → List (Frame S) → Prop}

theorem gives_env {change : S.Env → S.Env} {next : S.Env → Action S β}
    (h : Gives m J home { w with env := change w.env } frames (next w.env) Q) :
    Gives m J home w frames (.ask (.env change) next) Q :=
  gives_ask nofun fun e code _ hframes _ => ⟨w.env, _, frames, by rw [← hframes]; rfl, h⟩

theorem gives_look {next : View S → Action S β}
    (h : ∀ holds, Gives m J home w frames (next ⟨w, home, frames, holds⟩) Q) :
    Gives m J home w frames (.ask .look next) Q :=
  gives_ask nofun fun e code hhome hframes _ =>
    ⟨e.view w, w, frames, by rw [← hframes]; rfl, by
      rw [Evaluator.view, hhome, hframes]
      exact h _⟩

theorem gives_register {label : String} {phase : Option Phase} {rule : S.Rule}
    {next : WorkUnit S.Rule → Action S β}
    (h : Gives m J home (w.register home label phase rule).1 frames
      (next (w.register home label phase rule).2) Q) :
    Gives m J home w frames (.ask (.register label phase rule) next) Q :=
  gives_ask nofun fun e code hhome hframes _ =>
    ⟨_, _, frames, by rw [← hframes, ← hhome]; rfl, h⟩

theorem gives_resolveWith {c : S.Key} {u : WorkUnit S.Rule} {next : Unit → Action S β}
    (h : Gives m J home (w.resolveWith c u) frames (next ()) Q) :
    Gives m J home w frames (.ask (.resolveWith c u) next) Q :=
  gives_ask nofun fun e code _ hframes _ => ⟨(), _, frames, by rw [← hframes]; rfl, h⟩

theorem gives_note {event : Event} {next : Unit → Action S β}
    (h : ∀ origin, Gives m J home (w.note origin event) frames (next ()) Q) :
    Gives m J home w frames (.ask (.note event) next) Q :=
  gives_ask nofun fun e code _ hframes _ => ⟨(), _, frames, by rw [← hframes]; rfl, h e.worker⟩

theorem gives_report {d : Diagnostic} {next : Unit → Action S β}
    (h : ∀ origin, Gives m J home (w.report m origin home d) frames (next ()) Q) :
    Gives m J home w frames (.ask (.report d) next) Q :=
  gives_ask nofun fun e code hhome hframes _ =>
    ⟨(), _, frames, by rw [← hframes, ← hhome]; rfl, h e.worker⟩

theorem gives_reset {c : S.Key} {next : Unit → Action S β}
    (h : ∀ origin, Gives m J home (w.reset origin c) frames (next ()) Q) :
    Gives m J home w frames (.ask (.reset c) next) Q :=
  gives_ask nofun fun e code _ hframes _ => ⟨(), _, frames, by rw [← hframes]; rfl, h e.worker⟩

theorem gives_fail {f : Frame S} {d : Diagnostic} {next : Unit → Action S β}
    (hdoomed : f.doomed = true → ∀ origin,
      Gives m J home (w.note origin (.suppressed f.unit.label d.message)) (f :: frames) (next ()) Q)
    (hnew : f.doomed = false → ∀ origin,
      Gives m J home ((w.modifyScheduler home fun s =>
        s.setStatus f.unit.id .runningWillFail).report m origin home d)
        ({ f with doomed := true } :: frames) (next ()) Q) :
    Gives m J home w (f :: frames) (.ask (.fail d) next) Q := by
  refine gives_ask nofun fun e code hhome hframes _ => ?_
  cases hd : f.doomed with
  | true =>
    refine ⟨(), _, f :: frames, ?_, hdoomed hd e.worker⟩
    simp only [Evaluator.serve, Evaluator.fail, Evaluator.resume, hframes, hd, if_true]
  | false =>
    refine ⟨(), _, _, ?_, hnew hd e.worker⟩
    simp only [Evaluator.serve, Evaluator.fail, Evaluator.resume, hframes, hd, hhome]
    rfl

/-! ## Final values -/

namespace World

def force (w : World S) (origin : Option Nat) (c : S.Key) (v : S.Val c) : World S :=
  (w.setValue c (.forced v)).note origin (.forced (S.name c) 0)

theorem hooks_force (w : World S) (origin : Option Nat) (c d : S.Key) (v : S.Val c) :
    ((w.force origin c v).cell d).hooks = (w.cell d).hooks := by
  change ((w.setValue c (.forced v)).cell d).hooks = _
  by_cases h : c = d
  · subst h
    rw [setValue, cell_modifyCell_self]
  · rw [setValue, cell_modifyCell_ne w _ h]

end World

theorem Watched.write {P : World S → Evaluator S α → Prop} {e : Evaluator S α}
    (values : List ((c : S.Key) × S.Val c)) (hooks : ∀ x ∈ values, (w.cell x.1).hooks = [])
    (hw : e.writes = values.map fun x => .force x.1 x.2)
    (h : Watched m J P (values.foldl (fun w x => w.force e.worker x.1 x.2) w) { e with writes := [] }) :
    Watched m J P w e := by
  induction values generalizing w e with
  | nil =>
    have he : e = { e with writes := [] } := by rw [← show e.writes = [] from hw]
    rw [he]
    exact h
  | cons x rest ih =>
    have hx := hooks x List.mem_cons_self
    refine .next (Watch.allows_write hw) (w.force e.worker x.1 x.2)
      { e with writes := rest.map fun x => .force x.1 x.2 } (fun pick => ?_) ?_
    · rw [Evaluator.step, hw]
      simp only [List.map_cons, Evaluator.write, hx]
      rfl
    · refine ih (fun y hy => ?_) rfl h
      rw [World.hooks_force]
      exact hooks y (List.mem_cons_of_mem x hy)

theorem gives_fill {f : Frame S} {c : S.Key} {v : S.Val c} {next : Unit → Action S β}
    (hooks : (w.cell c).hooks = [])
    (hsoft : (f.head.isSome || f.doomed) = true → ∀ origin, Gives m J home (w.soften origin c v)
      ({ f with fills := f.fills ++ [c] } :: frames) (next ()) Q)
    (hforced : (f.head.isSome || f.doomed) = false → ∀ origin, Gives m J home (w.force origin c v)
      ({ f with fills := f.fills ++ [c] } :: frames) (next ()) Q) :
    Gives m J home w (f :: frames) (.ask (.fill c v) next) Q := by
  cases hf : f.head.isSome || f.doomed with
  | true =>
    refine gives_ask nofun fun e code hhome hframes _ => ⟨(), _, _, ?_, hsoft hf e.worker⟩
    simp only [Evaluator.serve, Evaluator.fill, Evaluator.resume, hframes, hf, if_true]
  | false =>
    intro α into e hinto hhome hframes hwrites hfocus
    obtain ⟨hrequest, hstep⟩ := hinto e (.fill c v) next hwrites hfocus
    refine .next (Watch.allows_request hrequest nofun) w { e with
      frames := { f with fills := f.fills ++ [c] } :: frames
      writes := [.force c v], focus := .act (into (next ())) } (fun pick => ?_) ?_
    · rw [hstep m pick w]
      simp only [Evaluator.serve, Evaluator.fill, Evaluator.resume, hframes, hf, hwrites]
      rfl
    · refine .write [⟨c, v⟩] (fun x hx => ?_) rfl ?_
      · rw [List.mem_singleton.1 hx]
        exact hooks
      · exact hforced hf e.worker into { e with
          frames := { f with fills := f.fills ++ [c] } :: frames
          writes := [], focus := .act (into (next ())) } hinto hhome rfl rfl rfl

theorem gives_deliver {f : Frame S} {c : S.Key} {v : S.Val c}
    {R : Unit → World S → List (Frame S) → Prop} (hu : (w.cell c).resolver = some f.unit)
    (hooks : (w.cell c).hooks = [])
    (h : ∀ origin, R () (if (f.head.isSome || f.doomed) = true then w.soften origin c v
      else w.force origin c v) ({ f with fills := f.fills ++ [c] } :: frames)) :
    Gives m J home w (f :: frames) (Action.deliver c v) R := by
  apply gives_look
  intro holds
  have hres : View.resolves ⟨w, home, f :: frames, holds⟩ c = true := by
    unfold View.resolves View.current?
    rw [hu]
    exact beq_self_eq_true f.unit.id
  change Gives m J home w (f :: frames) (if View.resolves ⟨w, home, f :: frames, holds⟩ c = true then
    Action.request (.fill c v) else .pure ()) R
  rw [if_pos hres]
  apply gives_fill hooks
  · intro hbad origin
    have hR := h origin
    rw [if_pos hbad] at hR
    exact gives_pure hR
  · intro hgood origin
    have hR := h origin
    rw [if_neg (by rw [hgood]; exact Bool.false_ne_true)] at hR
    exact gives_pure hR

/-! ## Asking for units -/

theorem gives_attempt {u : WorkUnit S.Rule} {next : Except Error Attempt → Action S β}
    (h : Answers m J home w frames (.unit u) fun r w' frames' =>
      Gives m J home w' frames' (next r) Q) :
    Gives m J home w frames (.ask (.attempt u) next) Q := by
  intro α into e hinto hhome hframes hwrites hfocus
  obtain ⟨hrequest, hstep⟩ := hinto e (.attempt u) next hwrites hfocus
  refine .next (Watch.allows_request hrequest nofun) w { e with
    levels := .attempted (fun r => into (next r)) :: e.levels, focus := .enter u }
    (fun pick => hstep m pick w) ?_
  refine (h { e with levels := .attempted (fun r => into (next r)) :: e.levels
                     focus := .enter u } hhome hframes hwrites rfl).trans ?_
  rintro w' e' ⟨r, hr, he'⟩
  refine .next (Watch.allows_answer (by rw [he'])) w'
    { e with frames := e'.frames, writes := [], focus := .act (into (next r)) } (fun pick => ?_) ?_
  · rw [he']
    rfl
  · exact hr into { e with frames := e'.frames, writes := [], focus := .act (into (next r)) }
      hinto hhome rfl rfl rfl

/-- The end of a read whose resolver was asked for: the world afterwards, when
the cell has no hooks, and what the reader gets. -/
def World.finishRead (w : World S) (origin : Option Nat) (c : S.Key) (resolver : String)
    (outcome : Attempt) : World S × Except Error (Probe (S.Val c)) :=
  match outcome, (w.cell c).value with
  | .success, .forced v | .success, .soft v => (w, .ok (.ready v))
  | .success, .unset => (w, .error (.unfilled (S.name c) resolver))
  | .provisional, .forced v | .provisional, .soft v => (w, .ok (.ready v))
  | .provisional, .unset => (w.soften origin c (S.fallback c), .ok (.cyclic (S.fallback c)))
  | .fail, .forced v => (w, .ok (.failed v))
  | .fail, _ => (w.force origin c (S.sentinel c), .ok (.failed (S.sentinel c)))
  | .failing, _ => (w, .ok (.failed (S.sentinel c)))
  | .cycle, .forced v => (w, .ok (.ready v))
  | .cycle, .soft v => (w, .ok (.cyclic v))
  | .cycle, .unset =>
    ((w.note origin (.fellBack (S.name c))).soften origin c (S.fallback c),
      .ok (.cyclic (S.fallback c)))

theorem Watched.finishProbe {P : World S → Evaluator S α → Prop} (e : Evaluator S α) {c : S.Key}
    (resolver : String) (next : Except Error (Probe (S.Val c)) → Code S α) (outcome : Attempt)
    (hooks : (w.cell c).hooks = []) (hwrites : e.writes = [])
    (h : Watched m J P (w.finishRead e.worker c resolver outcome).1
      { e with writes := [], focus := .act (next (w.finishRead e.worker c resolver outcome).2) }) :
    Watched m J P (e.finishProbe w c resolver next outcome).1
      (e.finishProbe w c resolver next outcome).2 := by
  rw [← hwrites] at h
  unfold Evaluator.finishProbe
  unfold World.finishRead at h
  have hforce : Watched m J P (w.force e.worker c (S.sentinel c))
      { e with focus := .act (next (.ok (.failed (S.sentinel c)))) } →
      Watched m J P w { e.resume (next (.ok (.failed (S.sentinel c)))) with
        writes := .force c (S.sentinel c) :: e.writes } := by
    intro hw
    refine .write [⟨c, S.sentinel c⟩] (fun x hx => ?_) (by rw [hwrites]; rfl) ?_
    · rw [List.mem_singleton.1 hx]
      exact hooks
    · rw [← hwrites]
      exact hw
  cases outcome <;> cases hv : (w.cell c).value <;> simp only [hv] at h ⊢
  case fail.unset => exact hforce h
  case fail.soft => exact hforce h
  all_goals exact h

theorem gives_probe {c : S.Key} {u : WorkUnit S.Rule}
    {next : Except Error (Probe (S.Val c)) → Action S β} (hJ : J.reads w frames c)
    (hu : (w.cell c).resolver = some u)
    (hforced : ∀ v, (w.cell c).value = .forced v →
      Gives m J home w frames (next (.ok (.ready v))) Q)
    (hask : (w.cell c).value.isForced = false → Answers m J home w frames (.unit u)
      fun r w' frames' => match r with
        | .error x => Gives m J home w' frames' (next (.error x)) Q
        | .ok outcome => (w'.cell c).hooks = [] ∧ ∀ origin,
          Gives m J home (w'.finishRead origin c u.label outcome).1 frames'
            (next (w'.finishRead origin c u.label outcome).2) Q) :
    Gives m J home w frames (.ask (.probe c) next) Q := by
  cases hv : (w.cell c).value with
  | forced v =>
    refine gives_ask (fun d hd => by cases hd; exact hJ) fun e code _ hframes _ =>
      ⟨(.ok (.ready v) : Except Error (Probe (S.Val c))), w, frames, ?_, hforced v hv⟩
    simp only [Evaluator.serve, Evaluator.startProbe, Evaluator.resume, hv, ← hframes]
  | unset | soft v =>
    have hask := hask (by rw [hv]; rfl)
    intro α into e hinto hhome hframes hwrites hfocus
    obtain ⟨hrequest, hstep⟩ := hinto e (.probe c) next hwrites hfocus
    refine .next (Watch.allows_request hrequest fun d hd => by cases hd; rw [hframes]; exact hJ)
      w { e with
        levels := .probed c u.label (fun r => into (next r)) :: e.levels, focus := .enter u }
      (fun pick => ?_) ?_
    · rw [hstep m pick w]
      simp only [Evaluator.serve, Evaluator.startProbe, hv, hu]
    refine (hask { e with levels := .probed c u.label (fun r => into (next r)) :: e.levels
                          focus := .enter u } hhome hframes hwrites rfl).trans ?_
    rintro w' e' ⟨r, hr, he'⟩
    cases r with
    | error x =>
      refine .next (Watch.allows_answer (by rw [he'])) w' { e with
        frames := e'.frames, writes := [], focus := .act (into (next (.error x))) }
        (fun pick => ?_) ?_
      · rw [he']
        rfl
      · exact hr into { e with frames := e'.frames, writes := []
                               focus := .act (into (next (.error x))) } hinto hhome rfl rfl rfl
    | ok outcome =>
      obtain ⟨hooks, hr⟩ := hr
      refine .next (Watch.allows_answer (by rw [he'])) _ _ (fun pick => ?_) (.finishProbe
        { e with frames := e'.frames, writes := [], focus := .answer (.ok outcome) }
        u.label (fun r => into (next r)) outcome hooks rfl ?_)
      · rw [he']
        rfl
      · exact hr e.worker into { e with
          frames := e'.frames, writes := []
          focus := .act (into (next (w'.finishRead e.worker c u.label outcome).2)) } hinto hhome
          rfl rfl rfl

/-! ## Entering units -/

section Enter

variable {u : WorkUnit S.Rule} {R : Except Error Attempt → World S → List (Frame S) → Prop}

private theorem step_enter {e : Evaluator S α} (hwrites : e.writes = [])
    (hfocus : e.focus = .enter u) (pick : Nat) : e.step m pick w = some (e.enter m w u) := by
  rw [Evaluator.step, hwrites, hfocus]

private theorem step_barrier {e : Evaluator S α} {phase : Phase} (hwrites : e.writes = [])
    (hfocus : e.focus = .barrier u phase) (pick : Nat) :
    e.step m pick w = e.passBarrier pick w u phase := by
  rw [Evaluator.step, hwrites, hfocus]

private theorem answers_of_enter {r : Except Error Attempt} (hJ : J.enters w frames u)
    (h : ∀ ⦃α : Type⦄ (e : Evaluator S α), e.home = home → e.frames = frames →
      ∃ w' frames', e.enter m w u =
        (w', { e with frames := frames', focus := .answer r }) ∧ R r w' frames') :
    Answers m J home w frames (.unit u) R := by
  intro α e hhome hframes hwrites hfocus
  obtain ⟨w', frames', henter, hR⟩ := h e hhome hframes
  refine .next (Watch.allows_enter hfocus (by rw [hframes]; exact hJ)) w'
    { e with frames := frames', focus := .answer r } (fun pick => ?_) (.here ⟨r, hR, ?_⟩)
  · rw [step_enter hwrites hfocus, henter]
  · rw [← hwrites]

theorem answers_success (hJ : J.enters w frames u) (hoff : Frame.indexOf? u.id frames = none)
    (hs : (w.scheduler home).status? u.id = some .success) (hR : R (.ok .success) w frames) :
    Answers m J home w frames (.unit u) R := by
  refine answers_of_enter hJ fun α e hhome hframes => ⟨w, frames, ?_, hR⟩
  simp only [Evaluator.enter, Evaluator.admission, hhome, hframes, hoff, hs, Evaluator.reply]

theorem answers_fail (hJ : J.enters w frames u) (hoff : Frame.indexOf? u.id frames = none)
    (hs : (w.scheduler home).status? u.id = some .fail) (hR : R (.ok .fail) w frames) :
    Answers m J home w frames (.unit u) R := by
  refine answers_of_enter hJ fun α e hhome hframes => ⟨w, frames, ?_, hR⟩
  simp only [Evaluator.enter, Evaluator.admission, hhome, hframes, hoff, hs, Evaluator.reply]

theorem answers_failing {index : Nat} (hJ : J.enters w frames u) (hon : Frame.indexOf? u.id frames = some index)
    (hs : (w.scheduler home).status? u.id = some .runningWillFail)
    (hR : R (.ok .failing) w frames) : Answers m J home w frames (.unit u) R := by
  refine answers_of_enter hJ fun α e hhome hframes => ⟨w, frames, ?_, hR⟩
  simp only [Evaluator.enter, Evaluator.admission, hhome, hframes, hon, hs, Evaluator.reply,
    if_true]

/-- Another unit on the stack: whatever is above it is part of a cycle. -/
theorem answers_cycle {index : Nat} (hJ : J.enters w frames u) (hon : Frame.indexOf? u.id frames = some index)
    (hs : (w.scheduler home).status? u.id ≠ some .runningWillFail)
    (hR : ∀ origin event, R (.ok .cycle)
      ((w.modifyScheduler home fun s => s.setStatus u.id .runningRecursive).note origin event)
      (Frame.joinCycleAbove index frames)) : Answers m J home w frames (.unit u) R := by
  refine answers_of_enter hJ fun α e hhome hframes =>
    ⟨_, _, ?_, hR e.worker (.cycle u.label e.frames.length)⟩
  simp only [Evaluator.enter, Evaluator.admission, hhome, hframes, hon, hs, Evaluator.reply,
    if_false]

/-- A new unit that no pending unit stands before. -/
structure Clear (s : Scheduler S.Rule) (frames : List (Frame S)) (u : WorkUnit S.Rule) : Prop where
  off : Frame.indexOf? u.id frames = none
  new : s.status? u.id = some .new
  first : u.phase.filter s.hasEarlier = none

theorem answers_tooDeep (hJ : J.enters w frames u) (h : Clear (w.scheduler home) frames u)
    (hdeep : (w.scheduler home).limits.maxDepth ≤ frames.length)
    (hR : R (.error (.depthExceeded u.label (w.scheduler home).limits.maxDepth)) w frames) :
    Answers m J home w frames (.unit u) R := by
  refine answers_of_enter hJ fun α e hhome hframes => ⟨w, frames, ?_, hR⟩
  simp only [Evaluator.enter, Evaluator.admission, hhome, hframes, h.off, h.new, h.first, hdeep,
    Evaluator.reply, if_true]

/-- What the end of the body of the topmost unit does to the cells that it filled, when
none of them has hooks. -/
def World.revised (w : World S) (origin : Option Nat) (f : Frame S) : Except Error Unit → World S
  | .error _ => w
  | .ok () =>
    if f.doomed then f.fills.foldl (fun w c => w.force origin c (S.sentinel c)) w
    else if f.head.isSome then
      f.fills.foldl (fun w c => w.modifyCell c fun cell => { cell with value := cell.value.softened }) w
    else w

def World.closed (w : World S) (home : SchedulerId) (origin : Option Nat) (f : Frame S)
    (result : Except Error Unit) : World S :=
  ((w.revised origin f result).modifyScheduler home fun s =>
    s.settle f.unit (f.outcome result).1).note origin (.finished f.unit.label (f.outcome result).1)

private theorem watched_close {P : World S → Evaluator S α → Prop} {e : Evaluator S α}
    {f : Frame S} {result : Except Error Unit} (levels : List (Level S α)) (hhome : e.home = home)
    (hframes : e.frames = f :: frames) (hlevels : e.levels = .running :: levels)
    (hwrites : e.writes = []) (hfocus : e.focus = .act (.body (.pure result)))
    (hooks : ∀ c ∈ f.fills, (w.cell c).hooks = [])
    (hJ : J.leaves (w.revised e.worker f result) f result)
    (h : Watched m J P (w.closed home e.worker f result)
      { e with frames, levels, writes := []
               focus := .answer (result.map fun _ => (f.outcome result).2) }) :
    Watched m J P w e := by
  have hsettle : ∀ v : World S, v = w.revised e.worker f result →
      Watched m J P v { e with writes := [], focus := .closing result } := by
    rintro v rfl
    refine .next (Watch.allows_closing rfl hframes hJ) _ _ (fun pick => ?_) h
    simp only [Evaluator.step, Evaluator.settle, Evaluator.reply, hframes, hlevels, hhome]
    rfl
  have hclose : ∀ v d, e.close w result = (v, d) → Watched m J P v d → Watched m J P w e := by
    intro v d heq hd
    refine .next (Watch.allows_quiet ?_ ?_ ?_) v d (fun pick => ?_) hd
    · rw [Evaluator.request?, hwrites, hfocus]
    · intro u hu
      cases hfocus.symm.trans hu
    · intro r hr
      cases hfocus.symm.trans hr
    · rw [Evaluator.step, hwrites, hfocus, ← heq]
  cases result with
  | error x =>
    refine hclose _ _ ?_ (hsettle w rfl)
    unfold Evaluator.close
    simp only [hframes, hwrites]
  | ok _ =>
    cases hd : f.doomed with
    | true =>
      refine hclose w { e with
        writes := (f.fills.map fun c => (⟨c, S.sentinel c⟩ : (c : S.Key) × S.Val c)).map
          fun x => .force x.1 x.2
        focus := .closing (.ok ()) } ?_ (.write _ (fun x hx => ?_) rfl (hsettle _ ?_))
      · unfold Evaluator.close
        simp only [hframes, hd, if_true, List.map_map]
        rfl
      · obtain ⟨c, hc, rfl⟩ := List.mem_map.1 hx
        exact hooks c hc
      · rw [List.foldl_map]
        simp only [World.revised, hd, if_true]
    | false =>
      cases hh : f.head.isSome with
      | true =>
        refine hclose _ _ ?_ (hsettle (f.fills.foldl (fun w c => w.modifyCell c fun cell =>
          { cell with value := cell.value.softened }) w) ?_)
        · unfold Evaluator.close
          simp only [hframes, hd, hh, hwrites]
          rfl
        · simp only [World.revised, hd, hh]
          rfl
      | false =>
        refine hclose _ _ ?_ (hsettle w ?_)
        · unfold Evaluator.close
          simp only [hframes, hd, hh, hwrites]
          rfl
        · simp only [World.revised, hd, hh]
          rfl

theorem answers_granted (hJ : J.enters w frames u) (h : Clear (w.scheduler home) frames u)
    (hroom : frames.length < (w.scheduler home).limits.maxDepth)
    (hbody : ∀ origin owner, Gives m J home
      ((w.modifyScheduler home fun s => s.claim u.id owner).note origin (.started u.label u.id))
      ({ unit := u } :: frames) (m.body u.rule) fun result w' frames' =>
        ∃ f rest, frames' = f :: rest ∧ (∀ c ∈ f.fills, (w'.cell c).hooks = []) ∧
          ∀ origin, J.leaves (w'.revised origin f result) f result ∧
            R (result.map fun _ => (f.outcome result).2) (w'.closed home origin f result) rest) :
    Answers m J home w frames (.unit u) R := by
  intro α e hhome hframes hwrites hfocus
  have hrun := hbody e.worker e.id .body { e with
    frames := { unit := u } :: frames, levels := .running :: e.levels
    focus := .act (.body (m.body u.rule)) } serves_body hhome rfl hwrites rfl
  refine .next (Watch.allows_enter hfocus (by rw [hframes]; exact hJ)) _ _ (fun pick => ?_)
    (hrun.trans ?_)
  · rw [step_enter hwrites hfocus]
    simp only [Evaluator.enter, Evaluator.admission, hhome, hframes, h.off, h.new,
      h.first, Nat.not_le.2 hroom, if_false]
  · rintro w' e' ⟨result, ⟨f, rest, hrest, hooks, hR⟩, he'⟩
    refine watched_close e.levels (by rw [he']; exact hhome) hrest (by rw [he']) (by rw [he'])
      (by rw [he']) hooks (hR _).1 (.here ⟨_, (hR _).2, ?_⟩)
    rw [he']

/-! ## Barriers -/

theorem answers_behind {phase : Phase} (hJ : J.enters w frames u) (hoff : Frame.indexOf? u.id frames = none)
    (hnew : (w.scheduler home).status? u.id = some .new)
    (hbehind : u.phase.filter (w.scheduler home).hasEarlier = some phase)
    (h : Answers m J home w frames (.past u phase) R) : Answers m J home w frames (.unit u) R := by
  intro α e hhome hframes hwrites hfocus
  refine .next (Watch.allows_enter hfocus (by rw [hframes]; exact hJ)) w
    { e with focus := .barrier u phase } (fun pick => ?_)
    (h { e with focus := .barrier u phase } hhome hframes hwrites rfl)
  rw [step_enter hwrites hfocus]
  simp only [Evaluator.enter, Evaluator.admission, hhome, hframes, hoff, hnew, hbehind]

theorem answers_past {phase : Phase} (hnone : (w.scheduler home).earlierUnits phase = [])
    (h : Answers m J home w frames (.unit u) R) : Answers m J home w frames (.past u phase) R := by
  intro α e hhome hframes hwrites hfocus
  refine .next (Watch.allows_barrier hfocus) w { e with focus := .enter u } (fun pick => ?_)
    (h { e with focus := .enter u } hhome hframes hwrites rfl)
  rw [step_barrier hwrites hfocus]
  simp only [Evaluator.passBarrier, hhome, hnone]

/-- A unit that stands before is run, and the rest are looked at again. -/
theorem answers_help {phase : Phase} (hsome : (w.scheduler home).earlierUnits phase ≠ [])
    (hoff : ∀ x ∈ (w.scheduler home).earlierUnits phase, Frame.indexOf? x.2.id frames = none)
    (hnew : ∀ x ∈ (w.scheduler home).earlierUnits phase,
      (w.scheduler home).status? x.2.id = some .new)
    (h : ∀ x ∈ (w.scheduler home).earlierUnits phase, ∀ origin event,
      Answers m J home (w.note origin event) frames (.unit x.2) fun r w' frames' => match r with
        | .error x => R (.error x) w' frames'
        | .ok .success | .ok .fail => Answers m J home w' frames' (.past u phase) R
        | .ok _ => R (.error (.phaseOrder u.label phase x.2.label x.1)) w' frames') :
    Answers m J home w frames (.past u phase) R := by
  intro α e hhome hframes hwrites hfocus
  refine .of_forall (Watch.allows_barrier hfocus) fun pick => ?_
  have hidle : (((w.scheduler home).earlierUnits phase).filter fun x =>
      (w.scheduler home).status? x.2.id = some .new) = (w.scheduler home).earlierUnits phase :=
    List.filter_eq_self.2 fun x hx => by simp [hnew x hx]
  have hpos : 0 < ((w.scheduler home).earlierUnits phase).length := List.length_pos_iff.2 hsome
  obtain ⟨x, hget⟩ : ∃ x, ((w.scheduler home).earlierUnits phase)[
      pick % ((w.scheduler home).earlierUnits phase).length]? = some x :=
    ⟨_, List.getElem?_eq_getElem (Nat.mod_lt pick hpos)⟩
  have hmem := List.mem_of_getElem? hget
  have hfind : (((w.scheduler home).earlierUnits phase).find? fun x =>
      (Frame.indexOf? x.2.id frames).isSome) = none :=
    List.find?_eq_none.2 fun x hx => by simp [hoff x hx]
  refine ⟨(w.note e.worker (.helping u.label x.2.label x.1), { e with
    levels := .helping u phase x.2 x.1 :: e.levels, focus := .enter x.2 }), ?_, ?_⟩
  · rw [step_barrier hwrites hfocus]
    simp only [Evaluator.passBarrier, hhome, hframes, hfind, hidle, hget]
  · refine (h x hmem e.worker _ { e with levels := .helping u phase x.2 x.1 :: e.levels
                                         focus := .enter x.2 } hhome hframes hwrites rfl).trans ?_
    rintro w' e' ⟨r, hr, he'⟩
    cases r with
    | error y =>
      exact .next (Watch.allows_answer (by rw [he'])) w'
        { e with frames := e'.frames, writes := [], focus := .answer (.error y) }
        (fun pick => by rw [he']; rfl) (.here ⟨_, hr, rfl⟩)
    | ok outcome =>
      cases outcome with
      | success | fail =>
        exact .next (Watch.allows_answer (by rw [he'])) w'
          { e with frames := e'.frames, writes := [], focus := .barrier u phase }
          (fun pick => by rw [he']; rfl)
          (hr { e with frames := e'.frames, writes := [], focus := .barrier u phase }
            hhome rfl rfl rfl)
      | provisional | cycle | failing =>
        exact .next (Watch.allows_answer (by rw [he'])) w' { e with
          frames := e'.frames, writes := []
          focus := .answer (.error (.phaseOrder u.label phase x.2.label x.1)) }
          (fun pick => by rw [he']; rfl) (.here ⟨_, hr, rfl⟩)

end Enter

end Attribution.Engine
