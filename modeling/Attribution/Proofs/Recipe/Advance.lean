import Mathlib.Logic.Relation
import Attribution.Proofs.Engine.Stack
import Attribution.Proofs.Recipe.Moment
/-!
# Advances

What one evaluator does while it works through recipes, cut into advances: a
unit starts, is entered again, reports a failure or ends, and a read is
answered. An advance carries what is known when it is made, so that every
invariant of recipes is proved from the cases of `Advance` alone.

* `Manned` ties the stack to the table (`Manned.advance`);
* `Wired` says that units and cells belong together (`Wired.advance`).
-/

namespace Attribution.Engine

variable {S : Schema}

namespace Moment

/-- The topmost unit takes part in a cycle. -/
def Touched (x : Moment S) : Prop :=
  ∃ f rest, x.frames = f :: rest ∧ (f.head ≠ none ∨ (x.log.run f.unit.id).reentered = true)

/-- What is known of a unit when asking for it has come to an outcome. -/
def Settles (home : SchedulerId) (u : WorkUnit S.Rule) (x : Moment S) : Attempt → Prop
  | .success => (x.world.scheduler home).status? u.id = some .success
  | .fail => (x.world.scheduler home).status? u.id = some .fail
  | .failing => ∃ f ∈ x.frames, f.unit = u ∧ f.doomed = true
  | .provisional | .cycle => x.Touched

end Moment

variable {m : Model S} (k : Rulebook m) (home : SchedulerId) (owner : EvaluatorId)
  (issued : List (WorkUnit S.Rule))

def WorkUnit.Before {ρ : Type} (u v : WorkUnit ρ) : Prop :=
  ∃ p q, u.phase = some p ∧ v.phase = some q ∧ p < q

/-- A unit rests on those whose cells it reads, and on those of earlier phases. -/
def Rulebook.Rests (v u : WorkUnit S.Rule) : Prop :=
  u ∈ issued ∧ ((k.recipe v.rule).Reads (k.target u.rule) ∨ u.Before v)

/-- The topmost unit rests on the unit, if there is one. -/
def Rulebook.Wanted (x : Moment S) (u : WorkUnit S.Rule) : Prop :=
  ∀ f ∈ x.frames.head?, Relation.TransGen (k.Rests issued) f.unit u

inductive Advance : Moment S → Moment S → Prop where
  | note {x : Moment S} {w : World S} (hw : x.world.Akin home w) : Advance x ⟨x.log, w, x.frames⟩
  | start {x : Moment S} {u : WorkUnit S.Rule} {w : World S} (hu : u ∈ issued)
    (hwant : k.Wanted issued x u) (hc : Clear (x.world.scheduler home) x.frames u)
    (hd : x.frames.length < (x.world.scheduler home).limits.maxDepth)
    (hw : (x.world.modifyScheduler home fun s => s.claim u.id owner).Akin home w) :
    Advance x ⟨x.log ++ [.started u.id], w, { unit := u } :: x.frames⟩
  | recur {x : Moment S} {u : WorkUnit S.Rule} {index : Nat} {w : World S} (hu : u ∈ issued)
    (hwant : k.Wanted issued x u) (hon : Frame.indexOf? u.id x.frames = some index)
    (hs : (x.world.scheduler home).status? u.id ≠ some .runningWillFail)
    (hw : (x.world.modifyScheduler home fun s =>
      s.setStatus u.id .runningRecursive).Akin home w) :
    Advance x ⟨x.log ++ [.reentered u.id], w, Frame.joinCycleAbove index x.frames⟩
  | look {x : Moment S} {c : S.Key} {v : S.Val c} (hv : (x.world.cell c).value = .forced v) :
    Advance x ⟨x.log ++ [.read x.reader? c v], x.world, x.frames⟩
  | finish {x y : Moment S} {c : S.Key} {u : WorkUnit S.Rule} {outcome : Attempt}
    {p : Probe (S.Val c)} (hu : (x.world.cell c).resolver = some u)
    (hs : x.Settles home u outcome) (h : x.Finishes home c outcome p y) : Advance x y
  | doom {x : Moment S} {f : Frame S} {rest : List (Frame S)} {w : World S} (d : Diagnostic)
    (hf : x.frames = f :: rest) (hd : f.doomed = false)
    (hw : (x.world.modifyScheduler home fun s =>
      s.setStatus f.unit.id .runningWillFail).Akin home w) :
    Advance x ⟨x.log ++ [.reported d], w, { f with doomed := true } :: rest⟩
  | stop {x : Moment S} {f : Frame S} {rest : List (Frame S)} {err : Error} {w : World S}
    (hf : x.frames = f :: rest)
    (hw : (x.world.modifyScheduler home fun s => s.settle f.unit .fail).Akin home w) :
    Advance x ⟨x.log ++ [.ended f (.error err)], w, rest⟩
  /-- The topmost unit delivers a final value. -/
  | succeed {x : Moment S} {f : Frame S} {rest : List (Frame S)} {v : S.Val (k.target f.unit.rule)}
    {w : World S} (hf : x.frames = f :: rest) (hd : f.doomed = false) (hh : f.head = none)
    (hfollows : (k.recipe f.unit.rule).Follows (x.log.run f.unit.id).reads false (.done v))
    (hw : ((x.world.setValue _ (.forced v)).modifyScheduler home fun s =>
      s.settle f.unit .success).Akin home w) :
    Advance x ⟨x.log ++ x.world.announcing _ v ++
      [.ended { f with fills := [k.target f.unit.rule] } (.ok ())], w, rest⟩
  /-- The topmost unit was part of a cycle and will run again. -/
  | defer {x : Moment S} {f : Frame S} {rest : List (Frame S)} {v : S.Val (k.target f.unit.rule)}
    {w : World S} (hf : x.frames = f :: rest) (hd : f.doomed = false) (hh : f.head ≠ none)
    (hw : ((x.world.setValue _ (.soft v)).modifyScheduler home fun s =>
      s.settle f.unit .new).Akin home w) :
    Advance x ⟨x.log ++ [.wrote _ (.soft v)] ++
      [.ended { f with fills := [k.target f.unit.rule] } (.ok ())], w, rest⟩
  /-- The topmost unit has failed, and its cell holds the sentinel. -/
  | lose {x : Moment S} {f : Frame S} {rest : List (Frame S)} {v : S.Val (k.target f.unit.rule)}
    {w : World S} (hf : x.frames = f :: rest) (hd : f.doomed = true)
    (hfollows : (k.recipe f.unit.rule).Follows (x.log.run f.unit.id).reads true (.done v))
    (hw : ((x.world.setValue (k.target f.unit.rule)
      (.forced (S.sentinel (k.target f.unit.rule)))).modifyScheduler home fun s =>
        s.settle f.unit .fail).Akin home w) :
    Advance x ⟨x.log ++ [.wrote _ (.soft v)] ++
      x.world.announcing (k.target f.unit.rule) (S.sentinel (k.target f.unit.rule)) ++
        [.ended { f with fills := [k.target f.unit.rule] } (.ok ())], w, rest⟩

variable {k home owner issued} {x y : Moment S}

theorem Moment.Finishes.frames_eq {c : S.Key} {outcome : Attempt} {p : Probe (S.Val c)}
    (h : x.Finishes home c outcome p y) : y.frames = x.frames := by
  cases h with
  | held | failing | fellBack | lost => rfl

theorem Moment.Finishes.table_eq {c : S.Key} {outcome : Attempt} {p : Probe (S.Val c)}
    (h : x.Finishes home c outcome p y) :
    (y.world.scheduler home).table = (x.world.scheduler home).table ∧
      y.world.schedulers.size = x.world.schedulers.size := by
  cases h with
  | held | failing => exact ⟨rfl, rfl⟩
  | fellBack ho h hp hw | lost h hp hw => exact ⟨hw.table, hw.size⟩

/-! ## Stacks and tables -/

/-- The stack is that of the only evaluator at work, and the table knows it. -/
structure Manned (home : SchedulerId) (owner : EvaluatorId) (issued : List (WorkUnit S.Rule))
    (x : Moment S) : Prop where
  exists_home : home < x.world.schedulers.size
  nodup : (x.frames.map fun f => f.unit.id).Nodup
  held : ∀ f ∈ x.frames, f.Held (x.world.scheduler home) owner
  registered : ∀ f ∈ x.frames, f.unit ∈ issued
  running : ∀ id status, (x.world.scheduler home).status? id = some status →
    status.isRunning = true → ∃ f ∈ x.frames, f.unit.id = id
  heads : Frame.HeadsBelow x.frames
  lists : (x.world.scheduler home).Lists home issued

structure Advance.Moves (home : SchedulerId) (owner : EvaluatorId)
    (issued : List (WorkUnit S.Rule)) (x y : Moment S) (e : Evaluator S Unit)
    (s : Scheduler S.Rule) : Prop where
  id : e.id = owner
  at_home : e.home = home
  frames : e.frames = x.frames
  mentions : ∀ u, e.Mentions u → u ∈ issued
  move : Move (x.world.scheduler home) e s y.frames []
  table : (y.world.scheduler home).table = s.table
  size : y.world.schedulers.size = x.world.schedulers.size

theorem Advance.exists_moves (h : Advance k home owner issued x y)
    (hhome : home < x.world.schedulers.size) :
    ∃ e s, Advance.Moves home owner issued x y e s := by
  let rest : Evaluator S Unit := { id := owner, home, frames := x.frames, focus := .done () }
  have hrest : ∀ u, ¬rest.Mentions u := fun u hu => by
    rcases hu with hu | ⟨l, hl, -⟩
    · exact hu
    · cases hl
  have hquiet : ∀ u, rest.Mentions u → u ∈ issued := fun u hu => absurd hu (hrest u)
  have htable : ∀ {v w : World S} {f : Scheduler S.Rule → Scheduler S.Rule},
      (v.modifyScheduler home f).Akin home w → v.schedulers = x.world.schedulers →
      (w.scheduler home).table = (f (x.world.scheduler home)).table ∧
        w.schedulers.size = x.world.schedulers.size := by
    intro v w f hw hv
    have hs : v.scheduler home = x.world.scheduler home := by rw [World.scheduler, hv]; rfl
    refine ⟨?_, by rw [hw.size, World.size_modifyScheduler, hv]⟩
    rw [hw.table, World.scheduler_modifyScheduler_self _ (by rw [hv]; exact hhome), hs]
  cases h with
  | note hw => exact ⟨rest, _, rfl, rfl, rfl, hquiet, .stay, hw.table, hw.size⟩
  | @start u w hu hwant hc hd hw =>
    let e : Evaluator S Unit := { rest with focus := .enter u }
    refine ⟨e, _, rfl, rfl, rfl, fun v hv => ?_, .claim (.inl rfl) hc.off hc.new (fun p hp => ?_) hd,
      (htable hw rfl).1, (htable hw rfl).2⟩
    · rcases hv with rfl | ⟨l, hl, -⟩
      · exact hu
      · cases hl
    · have hfirst := hc.first
      rw [hp] at hfirst
      simpa [Option.filter] using hfirst
  | recur hu hwant hon hs hw =>
    exact ⟨rest, _, rfl, rfl, rfl, hquiet, .recur hon hs, (htable hw rfl).1,
      (htable hw rfl).2⟩
  | look hv => exact ⟨rest, _, rfl, rfl, rfl, hquiet, .stay, rfl, rfl⟩
  | finish hu hs hy =>
    refine ⟨rest, _, rfl, rfl, rfl, hquiet, ?_, hy.table_eq.1,
      hy.table_eq.2⟩
    rw [hy.frames_eq]
    exact .stay
  | doom d hf hd hw =>
    exact ⟨rest, _, rfl, rfl, rfl, hquiet, .doom hf hd, (htable hw rfl).1,
      (htable hw rfl).2⟩
  | @stop f rest' err w hf hw =>
    exact ⟨rest, _, rfl, rfl, rfl, hquiet, .settle (.error err) hf,
      (htable hw rfl).1, (htable hw rfl).2⟩
  | @succeed f rest' v w hf hd hh hfollows hw =>
    have hout : (f.outcome (.ok ())).1 = .success := by simp [Frame.outcome, hd, hh]
    refine ⟨rest, _, rfl, rfl, rfl, hquiet, .settle (.ok ()) hf, ?_, ?_⟩
    · rw [hout]
      exact (htable hw rfl).1
    · exact (htable hw rfl).2
  | @defer f rest' v w hf hd hh hw =>
    have hout : (f.outcome (.ok ())).1 = .new := by
      simp [Frame.outcome, hd, Option.isSome_iff_ne_none.2 hh]
    refine ⟨rest, _, rfl, rfl, rfl, hquiet, .settle (.ok ()) hf, ?_, ?_⟩
    · rw [hout]
      exact (htable hw rfl).1
    · exact (htable hw rfl).2
  | @lose f rest' v w hf hd hfollows hw =>
    refine ⟨rest, _, rfl, rfl, rfl, hquiet, .settle (.ok ()) hf, ?_, (htable hw rfl).2⟩
    rw [Frame.outcome_of_doomed hd]
    exact (htable hw rfl).1

namespace Manned

theorem advance (h : Manned home owner issued x) (ha : Advance k home owner issued x y) :
    Manned home owner issued y ∧ ∀ id, Status.Change ((x.world.scheduler home).status? id)
      ((y.world.scheduler home).status? id) := by
  obtain ⟨e, s, hm⟩ := ha.exists_moves h.exists_home
  have hheld : ∀ f ∈ e.frames, f.Held (x.world.scheduler home) e.id := by
    rw [hm.frames, hm.id]
    exact h.held
  have hnodup : (e.frames.map fun f => f.unit.id).Nodup := by
    rw [hm.frames]
    exact h.nodup
  have hstatus := Scheduler.status?_eq_of_table hm.table
  have howner := Scheduler.owner?_eq_of_table hm.table
  have hchange : ∀ id, Status.Change ((x.world.scheduler home).status? id)
      ((y.world.scheduler home).status? id) := fun id => by
    rw [hstatus]
    exact hm.move.status_change hheld id
  refine ⟨⟨?_, hm.move.nodup hnodup, fun f hf => ?_, fun f hf => ?_, fun id status hs hr => ?_,
    hm.move.headsBelow (by rw [hm.frames]; exact h.heads), ?_⟩, hchange⟩
  · rw [hm.size]
    exact h.exists_home
  · have hf' := hm.move.held hheld hnodup f hf
    rw [hm.id] at hf'
    exact hf'.congr rfl rfl (howner _) (hstatus _)
  · rcases hm.move.origin hf with ⟨g, hg, hu⟩ | ⟨-, hu⟩
    · rw [hm.frames] at hg
      rw [← hu]
      exact h.registered g hg
    · exact hm.mentions _ hu
  · rcases hm.move.fate hheld id with hon | ⟨-, status', hs', hr'⟩ | ⟨hnot, -, hsame⟩
    · exact hon
    · rw [hstatus, hs'] at hs
      rw [Option.some.inj hs, hr] at hr'
      cases hr'
    · rcases Nat.lt_or_ge id (x.world.scheduler home).entries.size with hlt | hge
      · rw [hstatus, hsame hlt] at hs
        obtain ⟨f, hf, hid⟩ := h.running id status hs hr
        exact absurd hid (hnot f (by rw [hm.frames]; exact hf))
      · have hc := hchange id
        rw [((x.world.scheduler home).status?_eq_none_iff id).2 hge, hs] at hc
        rw [hc.eq_new] at hr
        cases hr
  · have hl := hm.move.lists hheld (by rw [hm.frames]; exact h.registered)
      (by rw [hm.at_home]; exact h.lists)
    rw [List.append_nil, hm.at_home] at hl
    exact hl.congr hm.table

end Manned

theorem Advance.limits_eq (h : Advance k home owner issued x y) :
    (y.world.scheduler home).limits = (x.world.scheduler home).limits := by
  have hmodify : ∀ {v w : World S} {f : Scheduler S.Rule → Scheduler S.Rule},
      (v.modifyScheduler home f).Akin home w → v.schedulers = x.world.schedulers →
      (∀ s, (f s).limits = s.limits) →
      (w.scheduler home).limits = (x.world.scheduler home).limits := by
    intro v w f hw hv hf
    have hs : v.scheduler home = x.world.scheduler home := by rw [World.scheduler, hv]; rfl
    rw [hw.limits, World.scheduler_modifyScheduler, hs]
    split
    · exact hf _
    · rfl
  cases h with
  | note hw => exact hw.limits
  | start hu hwant hc hd hw => exact hmodify hw rfl fun _ => rfl
  | recur hu hwant hon hs hw => exact hmodify hw rfl fun _ => rfl
  | look hv => rfl
  | finish hu hs hy =>
    cases hy with
    | held | failing => rfl
    | fellBack ho hv hp hw | lost hv hp hw => exact hw.limits
  | doom d hf hd hw => exact hmodify hw rfl fun _ => rfl
  | stop hf hw => exact hmodify hw rfl fun _ => rfl
  | succeed hf hd hh hfollows hw => exact hmodify hw rfl fun _ => rfl
  | defer hf hd hh hw => exact hmodify hw rfl fun _ => rfl
  | lose hf hd hfollows hw => exact hmodify hw rfl fun _ => rfl

/-! ## Cells -/

theorem Advance.wiring_eq (h : Advance k home owner issued x y) (c : S.Key) :
    (y.world.cell c).resolver = (x.world.cell c).resolver ∧
      (y.world.cell c).hooks = (x.world.cell c).hooks := by
  have hset : ∀ {d : S.Key} {v : CellValue (S.Val d)} {w : World S},
      (∀ c, w.cell c = (x.world.setValue d v).cell c) →
      (w.cell c).resolver = (x.world.cell c).resolver ∧
        (w.cell c).hooks = (x.world.cell c).hooks := by
    intro d v w hw
    rw [hw]
    by_cases hd : d = c
    · subst hd
      rw [World.cell_setValue_self]
      exact ⟨rfl, rfl⟩
    · rw [World.cell_setValue_ne _ _ hd]
      exact ⟨rfl, rfl⟩
  cases h with
  | note hw => rw [hw.cell]; exact ⟨rfl, rfl⟩
  | start hu hwant hc hd hw => rw [hw.cell]; exact ⟨rfl, rfl⟩
  | recur hu hwant hon hs hw => rw [hw.cell]; exact ⟨rfl, rfl⟩
  | look hv => exact ⟨rfl, rfl⟩
  | finish hu hs hy =>
    cases hy with
    | held | failing => exact ⟨rfl, rfl⟩
    | fellBack ho hv hp hw | lost hv hp hw => exact hset hw.cell
  | doom d hf hd hw => rw [hw.cell]; exact ⟨rfl, rfl⟩
  | stop hf hw => rw [hw.cell]; exact ⟨rfl, rfl⟩
  | succeed hf hd hh hfollows hw => exact hset hw.cell
  | defer hf hd hh hw => exact hset hw.cell
  | lose hf hd hfollows hw => exact hset hw.cell

/-- The resolver of each cell is the one unit whose rule is for the cell. -/
structure Wired (k : Rulebook m) (issued : List (WorkUnit S.Rule)) (w : World S) : Prop where
  serves : ∀ c u, (w.cell c).resolver = some u → u ∈ issued ∧ k.target u.rule = c
  resolves : ∀ u ∈ issued, (w.cell (k.target u.rule)).resolver = some u

theorem Wired.advance (h : Wired k issued x.world) (ha : Advance k home owner issued x y) :
    Wired k issued y.world := by
  refine ⟨fun c u hu => h.serves c u ?_, fun u hu => ?_⟩
  · rw [← (ha.wiring_eq c).1]
    exact hu
  · rw [(ha.wiring_eq _).1]
    exact h.resolves u hu

end Attribution.Engine
