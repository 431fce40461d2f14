import Attribution.Proofs.Engine.History
import Attribution.Proofs.Engine.Sheet
import Mathlib.Data.List.Induction
/-!
# Recipes

A recipe is the rule of a cell as a script of reads: it reads cells one after
the other, may report failures on the way, and comes to a value or to an error.
What is read next depends on the answers so far.

* `Recipe.Plain` recipes heed nothing but the values of the answers, and end
  with the first error they are answered with; `Recipe.Steady` recipes never stop
  by themselves;
* `Recipe.replay` computes the value of a plain recipe from given values of the
  cells, and `Recipe.Follows` says what a recipe has come to after some reads;
* a `Rulebook` reads the rules of a model as recipes.
-/

namespace Attribution.Engine

variable {S : Schema} {β : Type}

inductive Recipe (S : Schema) (β : Type) where
  | done (v : β)
  | probe (c : S.Key) (next : Except Error (Probe (S.Val c)) → Recipe S β)
  | fail (d : Diagnostic) (next : Recipe S β)
  | stop (x : Error)

namespace Recipe

def body (c : S.Key) : Recipe S (S.Val c) → Action S (Except Error Unit)
  | .done v => (Action.deliver c v).bind fun _ => .pure (.ok ())
  | .probe d next => .ask (.probe d) fun r => (next r).body c
  | .fail d next => .ask (.fail d) fun _ => next.body c
  | .stop x => .pure (.error x)

/-- The recipe reads the cell, given the right answers before. -/
def Reads (d : S.Key) : Recipe S β → Prop
  | .done _ | .stop _ => False
  | .probe c next => c = d ∨ ∃ r, (next r).Reads d
  | .fail _ next => next.Reads d

/-- The recipe ends with the first error that it is answered with, and otherwise
depends on the values that it reads alone. -/
def Plain : Recipe S β → Prop
  | .done _ | .stop _ => True
  | .probe _ next => (∀ x, next (.error x) = .stop x) ∧
    (∀ p q, p.value = q.value → next (.ok p) = next (.ok q)) ∧ ∀ p, (next (.ok p)).Plain
  | .fail _ next => next.Plain

/-- The recipe reads none but the given cells, and does not stop as long as it gets
values. -/
def Steady (P : S.Key → Prop) : Recipe S β → Prop
  | .done _ => True
  | .probe c next => P c ∧ ∀ p, (next (.ok p)).Steady P
  | .fail _ next => next.Steady P
  | .stop _ => False

/-- The value of a recipe when cells have the given values. A recipe that fails
or stops has none. -/
def replay (σ : (c : S.Key) → S.Val c) : Recipe S β → Option β
  | .done v => some v
  | .probe c next => (next (.ok (.ready (σ c)))).replay σ
  | .fail _ _ | .stop _ => none

/-- After the reads, and with a failure reported or not, this is what is left of
the recipe. -/
inductive Follows : Recipe S β → List ((c : S.Key) × S.Val c) → Bool → Recipe S β → Prop where
  | refl (s : Recipe S β) : Follows s [] false s
  | answer {c : S.Key} {next : Except Error (Probe (S.Val c)) → Recipe S β}
    {reads : List ((c : S.Key) × S.Val c)} {failed : Bool} {t : Recipe S β} (p : Probe (S.Val c))
    (h : Follows (next (.ok p)) reads failed t) :
    Follows (.probe c next) (⟨c, p.value⟩ :: reads) failed t
  | error {c : S.Key} {next : Except Error (Probe (S.Val c)) → Recipe S β}
    {reads : List ((c : S.Key) × S.Val c)} {failed : Bool} {t : Recipe S β} (x : Error)
    (h : Follows (next (.error x)) reads failed t) : Follows (.probe c next) reads failed t
  | fail {d : Diagnostic} {next : Recipe S β} {reads : List ((c : S.Key) × S.Val c)}
    {failed : Bool} {t : Recipe S β} (h : Follows next reads failed t) :
    Follows (.fail d next) reads true t

variable {s t u : Recipe S β} {reads reads' : List ((c : S.Key) × S.Val c)} {failed failed' : Bool}

theorem Follows.trans (h : s.Follows reads failed t) (h' : t.Follows reads' failed' u) :
    s.Follows (reads ++ reads') (failed || failed') u := by
  induction h with
  | refl => exact h'
  | answer p _ ih => exact .answer p (ih h')
  | error x _ ih => exact .error x (ih h')
  | fail _ ih => exact .fail (ih h')

theorem Follows.reads_next {c : S.Key} {next : Except Error (Probe (S.Val c)) → Recipe S β}
    (h : s.Follows reads failed (.probe c next)) : s.Reads c := by
  generalize ht : Recipe.probe c next = t at h
  induction h with
  | refl =>
    subst ht
    exact .inl rfl
  | answer p _ ih => exact .inr ⟨_, ih ht⟩
  | error x _ ih => exact .inr ⟨_, ih ht⟩
  | fail _ ih => exact ih ht

theorem Follows.reads_of_mem (h : s.Follows reads failed t) {x : (c : S.Key) × S.Val c}
    (hx : x ∈ reads) : s.Reads x.1 := by
  induction h with
  | refl => cases hx
  | answer p _ ih =>
    rcases List.mem_cons.1 hx with rfl | hx
    · exact .inl rfl
    · exact .inr ⟨_, ih hx⟩
  | error e _ ih => exact .inr ⟨_, ih hx⟩
  | fail _ ih => exact ih hx

/-- What a plain recipe comes to is what it comes to when it is replayed on the
values that it has read. -/
theorem Follows.replay_eq {σ : (c : S.Key) → S.Val c} {v : β} (hs : s.Plain)
    (h : s.Follows reads failed (.done v)) (hσ : ∀ x ∈ reads, σ x.1 = x.2) :
    s.replay σ = if failed then none else some v := by
  generalize ht : Recipe.done v = t at h
  induction h with
  | refl =>
    subst ht
    rfl
  | @answer c next reads failed t p _ ih =>
    have hc : σ c = p.value := hσ ⟨c, p.value⟩ List.mem_cons_self
    have hnext : next (.ok (.ready (σ c))) = next (.ok p) := hs.2.1 _ _ hc
    rw [replay, hnext]
    exact ih (hs.2.2 p) (fun x hx => hσ x (List.mem_cons_of_mem _ hx)) ht
  | @error c next reads failed t x h _ =>
    subst ht
    rw [hs.1 x] at h
    cases h
  | fail _ _ => rfl

theorem replay_congr {σ τ : (c : S.Key) → S.Val c} (s : Recipe S β)
    (h : ∀ c, s.Reads c → σ c = τ c) : s.replay σ = s.replay τ := by
  induction s with
  | done | fail | stop => rfl
  | probe c next ih =>
    rw [replay, replay, h c (.inl rfl)]
    exact ih _ fun d hd => h d (.inr ⟨_, hd⟩)

end Recipe

/-- The rules of a model as recipes for cells. Hooks pass nothing on to other
cells. -/
structure Rulebook (m : Model S) where
  target : S.Rule → S.Key
  recipe : (r : S.Rule) → Recipe S (S.Val (target r))
  body_eq : ∀ r, m.body r = (recipe r).body (target r)
  quiet : ∀ c h v env, (m.react c h v env).2 = none

def Recipe.model (target : S.Rule → S.Key) (recipe : (r : S.Rule) → Recipe S (S.Val (target r))) :
    Model S :=
  .ofBodies fun r => (recipe r).body (target r)

def Recipe.rulebook (target : S.Rule → S.Key)
    (recipe : (r : S.Rule) → Recipe S (S.Val (target r))) : Rulebook (model target recipe) where
  target := target
  recipe := recipe
  body_eq _ := rfl
  quiet _ _ _ _ := rfl

/-! ## Runs of units -/

/-- What a unit was seen to do since it last started. -/
structure Run (S : Schema) where
  reads : List ((c : S.Key) × S.Val c) := []
  reentered : Bool := false
  ended : Option (Frame S × Except Error Unit) := none

def Run.next (id : UnitId) (r : Run S) : Occurrence S → Run S
  | .started i => if i = id then {} else r
  | .reentered i => if i = id then { r with reentered := true } else r
  | .read reader c v => if reader = some id then { r with reads := r.reads ++ [⟨c, v⟩] } else r
  | .ended f result => if f.unit.id = id then { r with ended := some (f, result) } else r
  | _ => r

def History.run (log : History S) (id : UnitId) : Run S :=
  log.foldl (Run.next id) {}

def Occurrence.By (id : UnitId) : Occurrence S → Prop
  | .started i => i = id
  | .read reader _ _ => reader = some id
  | .ended f _ => f.unit.id = id
  | _ => False

def Occurrence.OfCell : Occurrence S → Prop
  | .wrote _ _ | .called _ _ _ => True
  | _ => False

theorem Occurrence.OfCell.not_by {o : Occurrence S} (h : o.OfCell) (id : UnitId) : ¬o.By id := by
  cases o with
  | wrote | called => exact fun hby => hby
  | _ => exact h.elim

theorem Run.next_eq_self {id : UnitId} {o : Occurrence S} (r : Run S) (ho : ¬o.By id)
    (hne : o ≠ .reentered id) : r.next id o = r := by
  cases o with
  | hooked | wrote | called | gave | reported | changed => rfl
  | started i => exact if_neg (show ¬i = id from ho)
  | read reader c v => exact if_neg (show ¬reader = some id from ho)
  | ended f result => exact if_neg (show ¬f.unit.id = id from ho)
  | reentered i => exact if_neg fun hi => hne (by rw [hi])

namespace History

variable {log new : History S} {id : UnitId}

theorem run_append_singleton (log : History S) (o : Occurrence S) (id : UnitId) :
    run (log ++ [o]) id = (log.run id).next id o := by
  rw [run, List.foldl_append]
  rfl

theorem run_append_reported (log : History S) (d : Diagnostic) (id : UnitId) :
    run (log ++ [.reported d]) id = log.run id :=
  run_append_singleton log _ id

/-- What others do changes nothing in the run of a unit but that it may be
entered again. -/
theorem run_append (log : History S) (h : ∀ o ∈ new, ¬o.By id) :
    ((log ++ new).run id).reads = (log.run id).reads ∧
    ((log ++ new).run id).ended = (log.run id).ended ∧
    (((log ++ new).run id).reentered = true ↔
      (log.run id).reentered = true ∨ .reentered id ∈ new) := by
  induction new using List.reverseRecOn with
  | nil => simp
  | append_singleton new o ih =>
    obtain ⟨hreads, hended, hre⟩ := ih fun o ho => h o (List.mem_append_left _ ho)
    rw [← List.append_assoc, run_append_singleton]
    by_cases hne : o = .reentered id
    · subst hne
      simp [Run.next, hreads, hended]
    · rw [Run.next_eq_self _ (h o (by simp)) hne, List.mem_append, List.mem_singleton,
        or_iff_left (Ne.symm hne)]
      exact ⟨hreads, hended, hre⟩

/-- A unit that was entered again stays so until it starts anew. -/
theorem reentered_run_append (h : .started id ∉ new) :
    ((log ++ new).run id).reentered = true ↔
      (log.run id).reentered = true ∨ .reentered id ∈ new := by
  induction new using List.reverseRecOn with
  | nil => simp
  | append_singleton new o ih =>
    have ih := ih fun hmem => h (List.mem_append_left _ hmem)
    rw [← List.append_assoc, run_append_singleton, List.mem_append, List.mem_singleton, ← or_assoc,
      ← ih]
    cases o with
    | hooked | wrote | called | gave | reported | changed => simp [Run.next]
    | read reader c v | ended f result =>
      rw [Run.next]
      split
      all_goals simp
    | started i =>
      have hne : ¬i = id := fun hi => h (by simp [hi])
      simp [Run.next, hne]
    | reentered i =>
      by_cases hi : i = id
      · simp [Run.next, hi]
      · simp [Run.next, hi, Ne.symm hi]

/-- What concerns other units or cells is no part of the run of a unit. -/
theorem run_append_of_apart (h : ∀ o ∈ new, ¬o.By id ∧ o ≠ .reentered id) :
    (log ++ new).run id = log.run id := by
  induction new using List.reverseRecOn with
  | nil => simp
  | append_singleton new o ih =>
    obtain ⟨hby, hne⟩ := h o (by simp)
    rw [← List.append_assoc, run_append_singleton, Run.next_eq_self _ hby hne]
    exact ih fun o ho => h o (List.mem_append_left _ ho)

theorem run_append_of_cells (h : ∀ o ∈ new, o.OfCell) : (log ++ new).run id = log.run id :=
  run_append_of_apart fun o ho => ⟨(h o ho).not_by id, fun heq => by
    have hcell := h o ho
    rw [heq] at hcell
    exact hcell⟩

theorem run_append_read {before after : History S} (hb : ∀ o ∈ before, o.OfCell)
    (ha : ∀ o ∈ after, o.OfCell) (reader : Option UnitId) (c : S.Key) (v : S.Val c) :
    (log ++ (before ++ .read reader c v :: after)).run id =
      (log.run id).next id (.read reader c v) := by
  have hsplit : log ++ (before ++ .read reader c v :: after) =
      log ++ before ++ [.read reader c v] ++ after := by simp
  rw [hsplit, run_append_of_cells ha, run_append_singleton, run_append_of_cells hb]

theorem mem_of_run (log : History S) (id : UnitId) :
    ((log.run id).reentered = true → .reentered id ∈ log) ∧
      ∀ f result, (log.run id).ended = some (f, result) → .ended f result ∈ log := by
  induction log using List.reverseRecOn with
  | nil => exact ⟨nofun, nofun⟩
  | append_singleton log o ih =>
    have ih : ((run log id).reentered = true → .reentered id ∈ log ++ [o]) ∧
        ∀ f result, (run log id).ended = some (f, result) → .ended f result ∈ log ++ [o] :=
      ⟨fun h => List.mem_append_left _ (ih.1 h), fun f r h => List.mem_append_left _ (ih.2 f r h)⟩
    rw [run_append_singleton]
    cases o with
    | hooked | wrote | called | gave | reported | changed => exact ih
    | started i =>
      rw [Run.next]
      split
      · exact ⟨nofun, nofun⟩
      · exact ih
    | read reader c v =>
      rw [Run.next]
      split
      all_goals exact ih
    | reentered i =>
      rw [Run.next]
      split
      · rename_i hi
        exact ⟨fun _ => by simp [hi], ih.2⟩
      · exact ih
    | ended f result =>
      rw [Run.next]
      split
      · refine ⟨ih.1, fun f' result' h => ?_⟩
        cases h
        simp
      · exact ih

end History

end Attribution.Engine
