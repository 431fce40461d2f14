import Mathlib.Data.Set.Finite.Basic
import Mathlib.Order.WellFounded
import Attribution.Proofs.Recipe.Backing
/-!
# Recipes as equations

The recipes of a session are equations for the values of its cells. When no
recipe depends on its own cell, the equations have one solution, and that is
what callers are given as long as no unit is entered again while it runs.

* `Rulebook.Solves` are the equations, `Rulebook.solution` solves them, and
  `Rulebook.Solves.eq` says that nothing else does;
* `Course.no_reentry` says when no unit is entered again: a unit rests on the
  cells that it reads and, because of the barriers, on the units of earlier
  phases, and nothing rests on itself;
* `Course.rests_on_final` is the result.
-/

namespace Attribution.Engine

open Relation

variable {S : Schema} {m : Model S} {k : Rulebook m} {home : SchedulerId} {owner : EvaluatorId}
  {issued : List (WorkUnit S.Rule)} {log log' : History S} {w w' : World S} {x y : Moment S}
  {c : S.Key}

/-! ## Solutions -/

namespace Rulebook

variable (k) (issued)

/-- The equations: a recipe that fails or stops gives the sentinel, and so does
a cell without a recipe. -/
structure Solves (σ : (c : S.Key) → S.Val c) : Prop where
  ruled : ∀ u ∈ issued, σ (k.target u.rule) = ((k.recipe u.rule).replay σ).getD (S.sentinel _)
  bare : ∀ c, (∀ u ∈ issued, k.target u.rule ≠ c) → σ c = S.sentinel c

def Consults (v u : WorkUnit S.Rule) : Prop :=
  u ∈ issued ∧ (k.recipe v.rule).Reads (k.target u.rule)

def Single : Prop :=
  ∀ u ∈ issued, ∀ v ∈ issued, k.target u.rule = k.target v.rule → u = v

/-- The values of units as values of their cells. -/
noncomputable def spread (val : (u : { u // u ∈ issued }) → S.Val (k.target u.1.rule))
    (c : S.Key) : S.Val c :=
  open Classical in
  if h : ∃ u : { u // u ∈ issued }, k.target u.1.rule = c then h.choose_spec ▸ val h.choose
  else S.sentinel c

variable {k issued}

theorem spread_target (hk : k.Single issued)
    (val : (u : { u // u ∈ issued }) → S.Val (k.target u.1.rule)) (u : { u // u ∈ issued }) :
    k.spread issued val (k.target u.1.rule) = val u := by
  have h : ∃ v : { v // v ∈ issued }, k.target v.1.rule = k.target u.1.rule := ⟨u, rfl⟩
  have hu : h.choose = u := Subtype.ext (hk _ h.choose.2 _ u.2 h.choose_spec)
  rw [spread, dif_pos h]
  have hcast : ∀ (v : { v // v ∈ issued }) (hv : v = u)
      (ht : k.target v.1.rule = k.target u.1.rule), ht ▸ val v = val u := by
    rintro v rfl ht
    rfl
  exact hcast _ hu _

theorem spread_bare (val : (u : { u // u ∈ issued }) → S.Val (k.target u.1.rule))
    (hc : ∀ u ∈ issued, k.target u.rule ≠ c) : k.spread issued val c = S.sentinel c := by
  rw [spread, dif_neg]
  rintro ⟨u, hu⟩
  exact hc u.1 u.2 hu

theorem wellFounded_consults (h : ∀ u, ¬TransGen (k.Consults issued) u u) :
    WellFounded fun u v : { u // u ∈ issued } => k.Consults issued v.1 u.1 := by
  have hfinite : Finite { u // u ∈ issued } := (List.finite_toSet issued).to_subtype
  let r : { u // u ∈ issued } → { u // u ∈ issued } → Prop :=
    TransGen fun u v => k.Consults issued v.1 u.1
  have htrans : IsTrans _ r := ⟨fun _ _ _ => TransGen.trans⟩
  have hirrefl : Std.Irrefl r := ⟨fun u hu => by
    refine h u.1 (transGen_swap.1 (hu.lift Subtype.val fun _ _ hr => ?_))
    exact hr⟩
  have hwf : WellFounded r := Finite.wellFounded_of_trans_of_irrefl r
  exact hwf.mono fun _ _ hr => .single hr

/-- The values of units, each computed from those that it consults. -/
noncomputable def values
    (hwf : WellFounded fun u v : { u // u ∈ issued } => k.Consults issued v.1 u.1) :
    (u : { u // u ∈ issued }) → S.Val (k.target u.1.rule) :=
  open Classical in
  hwf.fix fun u val => ((k.recipe u.1.rule).replay (k.spread issued fun v =>
    if h : k.Consults issued u.1 v.1 then val v h else S.sentinel _)).getD (S.sentinel _)

/-- **There is a solution.** -/
theorem solves_spread (hk : k.Single issued)
    (hwf : WellFounded fun u v : { u // u ∈ issued } => k.Consults issued v.1 u.1) :
    k.Solves issued (k.spread issued (values hwf)) := by
  classical
  refine ⟨fun u hu => ?_, fun c hc => spread_bare _ hc⟩
  rw [spread_target hk _ ⟨u, hu⟩, values, hwf.fix_eq]
  refine congrArg (Option.getD · _) (Recipe.replay_congr _ fun c hc => ?_)
  by_cases hruled : ∃ v ∈ issued, k.target v.rule = c
  · obtain ⟨v, hv, rfl⟩ := hruled
    rw [spread_target hk _ ⟨v, hv⟩, spread_target hk _ ⟨v, hv⟩, dif_pos ⟨hv, hc⟩]
  · have hbare : ∀ v ∈ issued, k.target v.rule ≠ c := fun v hv heq => hruled ⟨v, hv, heq⟩
    rw [spread_bare _ hbare, spread_bare _ hbare]

/-- **There is no other solution.** -/
theorem Solves.eq {σ τ : (c : S.Key) → S.Val c} (hσ : k.Solves issued σ) (hτ : k.Solves issued τ)
    (hwf : WellFounded fun u v : { u // u ∈ issued } => k.Consults issued v.1 u.1) : σ = τ := by
  have hcell : ∀ c, (∀ u : { u // u ∈ issued }, k.target u.1.rule = c → σ c = τ c) → σ c = τ c := by
    intro c hc
    by_cases hruled : ∃ v ∈ issued, k.target v.rule = c
    · obtain ⟨v, hv, heq⟩ := hruled
      exact hc ⟨v, hv⟩ heq
    · have hbare : ∀ v ∈ issued, k.target v.rule ≠ c := fun v hv heq => hruled ⟨v, hv, heq⟩
      rw [hσ.bare c hbare, hτ.bare c hbare]
  have hunit : ∀ u : { u // u ∈ issued }, σ (k.target u.1.rule) = τ (k.target u.1.rule) := by
    intro u
    induction u using hwf.induction with
    | _ u ih =>
      rw [hσ.ruled u.1 u.2, hτ.ruled u.1 u.2]
      refine congrArg (Option.getD · _) (Recipe.replay_congr _ fun c hc => hcell c fun v hv => ?_)
      subst hv
      exact ih v ⟨v.2, hc⟩
  funext c
  exact hcell c fun u hu => hu ▸ hunit u

end Rulebook

/-! ## Cycles -/

/-- Whatever is part of a cycle is so because a unit was entered again. -/
structure Straight (x : Moment S) : Prop where
  frames : ∀ f ∈ x.frames, f.head ≠ none → ∃ id, .reentered id ∈ x.log
  ended : ∀ f result, .ended f result ∈ x.log → f.head ≠ none → ∃ id, .reentered id ∈ x.log

private theorem Straight.of_log {new : History S} (h : Straight x) (hlog : y.log = x.log ++ new)
    (hframes : ∀ f ∈ y.frames, f.head ≠ none → ∃ g ∈ x.frames, g.head ≠ none)
    (hended : ∀ f result, .ended f result ∈ new → f.head ≠ none → ∃ g ∈ x.frames, g.head ≠ none) :
    Straight y := by
  have hstack : (∃ g ∈ x.frames, g.head ≠ none) → ∃ id, .reentered id ∈ y.log := by
    rintro ⟨g, hg, hh⟩
    obtain ⟨id, hid⟩ := h.frames g hg hh
    exact ⟨id, by rw [hlog]; exact List.mem_append_left _ hid⟩
  refine ⟨fun f hf hh => hstack (hframes f hf hh), fun f result hmem hh => ?_⟩
  rw [hlog] at hmem
  rcases List.mem_append.1 hmem with hmem | hmem
  · obtain ⟨id, hid⟩ := h.ended f result hmem hh
    exact ⟨id, by rw [hlog]; exact List.mem_append_left _ hid⟩
  · exact hstack (hended f result hmem hh)

theorem Straight.advance (h : Straight x) (ha : Advance k home owner issued x y) : Straight y := by
  -- The topmost unit ends and leaves the stack.
  have hpop : ∀ {f g : Frame S} {rest : List (Frame S)} {cells : History S}
      {result : Except Error Unit}, x.frames = f :: rest → y.frames = rest →
      y.log = x.log ++ cells ++ [.ended g result] → g.head = f.head → (∀ o ∈ cells, o.OfCell) →
      Straight y := by
    intro f g rest cells result hf hrest hlog hhead hcells
    rw [List.append_assoc] at hlog
    refine h.of_log hlog (fun f' hf' hh => ⟨f', ?_, hh⟩) fun f' result' hmem hh => ⟨f, ?_, ?_⟩
    · rw [hf]
      exact List.mem_cons_of_mem _ (hrest ▸ hf')
    · rw [hf]
      exact List.mem_cons_self
    · rcases List.mem_append.1 hmem with hmem | hmem
      · exact (hcells _ hmem).elim
      · cases List.mem_singleton.1 hmem
        rw [← hhead]
        exact hh
  cases ha with
  | note => exact h.of_log (List.append_nil _).symm (fun f hf hh => ⟨f, hf, hh⟩) (by simp)
  | start =>
    refine h.of_log rfl (fun f hf hh => ?_) (by simp)
    rcases List.mem_cons.1 hf with rfl | hf
    · exact absurd rfl hh
    · exact ⟨f, hf, hh⟩
  | @recur u => exact ⟨fun _ _ _ => ⟨u.id, by simp⟩, fun _ _ _ _ => ⟨u.id, by simp⟩⟩
  | look => exact h.of_log rfl (fun f hf hh => ⟨f, hf, hh⟩) (by simp)
  | finish hu hs hy =>
    obtain ⟨before, after, hlog, hb, haft⟩ := hy.log_eq
    refine h.of_log hlog (fun f hf hh => ⟨f, hy.frames_eq ▸ hf, hh⟩) fun f result hmem _ => ?_
    rcases List.mem_append.1 hmem with hmem | hmem
    · exact (hb _ hmem).elim
    rcases List.mem_cons.1 hmem with hmem | hmem
    · cases hmem
    · exact (haft _ hmem).elim
  | @doom f rest w d hf hd hw =>
    refine h.of_log rfl (fun g hg hh => ?_) (by simp)
    rw [hf]
    rcases List.mem_cons.1 hg with rfl | hg
    · exact ⟨f, List.mem_cons_self, hh⟩
    · exact ⟨g, List.mem_cons_of_mem _ hg, hh⟩
  | stop hf hw =>
    exact hpop hf rfl (congrArg (· ++ _) (List.append_nil x.log).symm) rfl (List.forall_mem_nil _)
  | succeed hf hd hh hfollows hw =>
    exact hpop hf rfl rfl rfl fun o ho => World.ofCell_of_mem_announcing ho
  | defer hf hd hh hw =>
    refine hpop hf rfl rfl rfl fun o ho => ?_
    cases List.mem_singleton.1 ho
    trivial
  | lose hf hd hfollows hw =>
    refine hpop hf rfl (congrArg (· ++ _) (List.append_assoc x.log _ _)) rfl fun o ho => ?_
    rcases List.mem_append.1 ho with ho | ho
    · cases List.mem_singleton.1 ho
      trivial
    · exact World.ofCell_of_mem_announcing ho

/-- Every unit on the stack rests on those above it. -/
def Stacked (k : Rulebook m) (issued : List (WorkUnit S.Rule)) (x : Moment S) : Prop :=
  x.frames.Pairwise fun f g => TransGen (k.Rests issued) g.unit f.unit

theorem Stacked.wanted (h : Stacked k issued x) {u : WorkUnit S.Rule}
    (hwant : k.Wanted issued x u) {g : Frame S} (hg : g ∈ x.frames) :
    TransGen (k.Rests issued) g.unit u := by
  obtain ⟨f, rest, hf⟩ := List.exists_cons_of_ne_nil (List.ne_nil_of_mem hg)
  have htop := hwant f (by rw [hf]; rfl)
  rw [Stacked, hf, List.pairwise_cons] at h
  rw [hf] at hg
  rcases List.mem_cons.1 hg with rfl | hg
  · exact htop
  · exact (h.1 g hg).trans htop

/-- **One advance.** No unit is entered again when nothing rests on itself. -/
theorem Stacked.advance (h : Stacked k issued x) (hm : Manned home owner issued x)
    (hacyclic : ∀ u, ¬TransGen (k.Rests issued) u u) (ha : Advance k home owner issued x y) :
    Stacked k issued y ∧ ∀ id, .reentered id ∈ y.log → .reentered id ∈ x.log := by
  have hpop : ∀ {f : Frame S} {rest : List (Frame S)}, x.frames = f :: rest →
      rest.Pairwise fun f g => TransGen (k.Rests issued) g.unit f.unit := fun hf => by
    rw [Stacked, hf] at h
    exact h.of_cons
  cases ha with
  | note => exact ⟨h, fun id hid => hid⟩
  | start hu hwant hc hd hw =>
    exact ⟨List.pairwise_cons.2 ⟨fun g hg => h.wanted hwant hg, h⟩, by simp⟩
  | @recur u index w hu hwant hon hs hw =>
    obtain ⟨above, f, below, hf, hid, -⟩ := Frame.exists_of_indexOf? hon
    have hmem : f ∈ x.frames := by rw [hf]; simp
    have hself := h.wanted hwant hmem
    rw [hm.lists.eq_of_id (hm.registered f hmem) hu hid] at hself
    exact absurd hself (hacyclic u)
  | look => exact ⟨h, by simp⟩
  | finish hu hs hy =>
    obtain ⟨before, after, hlog, hb, haft⟩ := hy.log_eq
    refine ⟨by rw [Stacked, hy.frames_eq]; exact h, fun id hid => ?_⟩
    rw [hlog] at hid
    simp only [List.mem_append, List.mem_cons] at hid
    rcases hid with hid | hid | hid | hid
    · exact hid
    · exact (hb _ hid).elim
    · cases hid
    · exact (haft _ hid).elim
  | doom d hf hd hw =>
    rw [Stacked, hf, List.pairwise_cons] at h
    exact ⟨List.pairwise_cons.2 h, by simp⟩
  | stop hf hw => exact ⟨hpop hf, by simp⟩
  | succeed hf hd hh hfollows hw => exact ⟨hpop hf, by simp [World.announcing]⟩
  | defer hf hd hh hw => exact ⟨hpop hf, by simp⟩
  | lose hf hd hfollows hw => exact ⟨hpop hf, by simp [World.announcing]⟩

theorem Stacked.advances (h : Stacked k issued x) (hx : Sound k home owner issued x)
    (hacyclic : ∀ u, ¬TransGen (k.Rests issued) u u) (ha : Advances k home owner issued x y) :
    Stacked k issued y ∧ ∀ id, .reentered id ∈ y.log → .reentered id ∈ x.log := by
  induction ha with
  | refl => exact ⟨h, fun id hid => hid⟩
  | tail hb ha ih =>
    obtain ⟨hstacked, hlog⟩ := ih.1.advance (hx.advances hb).manned hacyclic ha
    exact ⟨hstacked, fun id hid => ih.2 id (hlog id hid)⟩

/-! ## Sessions -/

/-- A run that succeeds has failed nowhere and is part of no cycle. -/
theorem Frame.of_outcome_success (f : Frame S) {result : Except Error Unit}
    (h : (f.outcome result).1 = .success) :
    result = .ok () ∧ f.doomed = false ∧ f.head = none := by
  cases result with
  | error x => cases h
  | ok =>
    unfold outcome at h
    cases hd : f.doomed <;> cases hh : f.head <;> simp_all

/-- The value that every later read of a cell gives, if it gives any. -/
def World.final (w : World S) (c : S.Key) : S.Val c :=
  match (w.cell c).value with
  | .forced v => v
  | _ => S.sentinel c

theorem Stored.final_of_fail (h : Stored k home issued w) {u : WorkUnit S.Rule} (hu : u ∈ issued)
    (hs : (w.scheduler home).status? u.id = some .fail) :
    w.final (k.target u.rule) = S.sentinel (k.target u.rule) := by
  unfold World.final
  cases hv : (w.cell (k.target u.rule)).value with
  | forced v => exact (h.agrees u hu).lost hs v hv
  | unset | soft v => rfl

/-- A value that stays is that of a unit that has ended. -/
theorem Final.at_rest (hx : Sound k home owner issued ⟨log, w, []⟩) {v : S.Val c}
    (h : Final home ⟨log, w, []⟩ c v) : w.final c = v ∧ ∃ u ∈ issued, k.target u.rule = c ∧
      ∃ s, (w.scheduler home).status? u.id = some s ∧ s.isTerminal = true := by
  rcases h with hv | ⟨rfl, u, hu, hfail | ⟨f, hf, -⟩⟩
  · change (w.cell c).value = .forced v at hv
    refine ⟨by rw [World.final, hv], ?_⟩
    cases hres : (w.cell c).resolver with
    | none =>
      rw [hx.stored.bare c hres] at hv
      cases hv
    | some u =>
      obtain ⟨hmem, rfl⟩ := hx.wired.serves c u hres
      exact ⟨u, hmem, rfl, (hx.stored.agrees u hmem).ended v hv⟩
  · obtain ⟨hmem, rfl⟩ := hx.wired.serves c u hu
    exact ⟨hx.stored.final_of_fail hmem hfail, u, hmem, rfl, .fail, hfail, rfl⟩
  · cases hf

theorem Rulebook.Rests.mono {v u : WorkUnit S.Rule} {issued' : List (WorkUnit S.Rule)}
    (h : k.Rests issued v u) : k.Rests (issued ++ issued') v u :=
  ⟨List.mem_append_left _ h.1, h.2⟩

namespace Course

theorem straight (h : Course k home log w issued) : Straight ⟨log, w, []⟩ := by
  induction h with
  | start => exact ⟨nofun, by simp⟩
  | rule hc hfree he ht hu ih =>
    obtain ⟨rfl, -, -⟩ := world_of_setRule he ht hu
    exact ih.of_log rfl nofun (by simp)
  | hook hc he ht hu ih =>
    obtain ⟨rfl, -⟩ := world_of_addHook he ht hu
    exact ih.of_log rfl nofun (by simp)
  | @get log log' w w' issued c r e e' hc he ht hr ih =>
    have hend : Straight ⟨log', w', []⟩ := by
      have hadvances := ((hc.sound e.id).told he ht hr).advances
      generalize (⟨log', w', []⟩ : Moment S) = y at hadvances
      induction hadvances with
      | refl => exact ih
      | tail _ ha ih => exact ih.advance ha
    exact hend.of_log rfl nofun (by simp)
  | pass hc hw ih => exact ⟨nofun, ih.ended⟩

/-- **No unit is entered again** when nothing rests on itself. -/
theorem no_reentry (h : Course k home log w issued)
    (hacyclic : ∀ u, ¬TransGen (k.Rests issued) u u) (id : UnitId) : .reentered id ∉ log := by
  induction h with
  | start => exact List.not_mem_nil
  | rule hc hfree he ht hu ih =>
    obtain ⟨rfl, -, -⟩ := world_of_setRule he ht hu
    have hnone := ih fun u hu => hacyclic u (TransGen.mono (fun _ _ => Rulebook.Rests.mono) u u hu)
    simpa using hnone
  | hook hc he ht hu ih =>
    obtain ⟨rfl, -⟩ := world_of_addHook he ht hu
    simpa using ih hacyclic
  | @get log log' w w' issued c r e e' hc he ht hr ih =>
    intro hid
    have htold := (hc.sound e.id).told he ht hr
    have hstacked : Stacked k issued ⟨log, w, []⟩ := List.Pairwise.nil
    refine ih hacyclic ((hstacked.advances (hc.sound e.id) hacyclic htold.advances).2 id ?_)
    simpa using hid
  | pass hc hw ih => exact ih hacyclic

/-- When no caller was given an error, no unit has ended with one. -/
theorem calm (h : Course k home log w issued) (hplain : ∀ rule, (k.recipe rule).Plain)
    (hok : ∀ c x, .gave c (.error x) ∉ log) (f : Frame S) (x : Error) :
    .ended f (.error x) ∉ log := by
  induction h with
  | start => exact List.not_mem_nil
  | rule hc hfree he ht hu ih =>
    obtain ⟨rfl, -, -⟩ := world_of_setRule he ht hu
    have hnone := ih fun c x hmem => hok c x (List.mem_append_left _ hmem)
    simpa using hnone
  | hook hc he ht hu ih =>
    obtain ⟨rfl, -⟩ := world_of_addHook he ht hu
    have hnone := ih fun c x hmem => hok c x (List.mem_append_left _ hmem)
    simpa using hnone
  | @get log log' w w' issued c r e e' hc he ht hr ih =>
    intro hmem
    have htold := (hc.sound e.id).told he ht hr
    obtain ⟨new, rfl⟩ := ht.exists_append
    have hvalue : ∃ p, r = .ok p := by
      cases r with
      | error x => exact absurd (by simp) (hok c x)
      | ok p => exact ⟨p, rfl⟩
    refine ih (fun c x hmem => hok c x ?_) (htold.calm hplain hvalue f x ?_)
    · exact List.mem_append_left _ (List.mem_append_left _ hmem)
    · simpa using hmem
  | pass hc hw ih => exact ih hok

/-- What a unit has read that no cycle touched is what callers are given. -/
theorem final_of_read (h : Course k home log w issued) {u : WorkUnit S.Rule} {f : Frame S}
    {result : Except Error Unit} (hclosed : Closed k home ⟨log, w, []⟩ u f result)
    (hhead : f.head = none) (hre : (log.run u.id).reentered = false) :
    ∀ r ∈ (log.run u.id).reads, w.final r.1 = r.2 :=
  fun r hr => ((hclosed.backed hhead hre r hr).at_rest (h.sound 0)).1

theorem final_of_gave (h : Course k home log w issued) {p : Probe (S.Val c)}
    (hp : .gave c (.ok p) ∈ log) : w.final c = p.value := by
  rw [World.final, h.value_of_gave hp]

/-- The final values solve the equations of units that have ended. -/
theorem final_eq (h : Course k home log w issued) (hplain : ∀ rule, (k.recipe rule).Plain)
    (hok : ∀ c x, .gave c (.error x) ∉ log) (hre : ∀ id, .reentered id ∉ log)
    (hwf : WellFounded fun u v : { u // u ∈ issued } => k.Consults issued v.1 u.1)
    {σ : (c : S.Key) → S.Val c} (hσ : k.Solves issued σ) (u : { u // u ∈ issued })
    (hended : ∃ s, (w.scheduler home).status? u.1.id = some s ∧ s.isTerminal = true) :
    w.final (k.target u.1.rule) = σ (k.target u.1.rule) := by
  induction u using hwf.induction with
  | _ u ih =>
    obtain ⟨s, hs, ht⟩ := hended
    obtain ⟨f, result, hclosed⟩ := h.grounded.ended u.1 u.2 s hs ht
    have hmem := (log.mem_of_run u.1.id).2 f result hclosed.ended
    have hclean : (log.run u.1.id).reentered = false :=
      Bool.eq_false_iff.2 fun hrun => hre _ ((log.mem_of_run u.1.id).1 hrun)
    have hhead : f.head = none := Classical.not_not.1 fun hne => by
      obtain ⟨id, hid⟩ := h.straight.ended f result hmem hne
      exact hre id hid
    have hresult : result = .ok () := by
      cases result with
      | error x => exact absurd hmem (h.calm hplain hok f x)
      | ok => rfl
    obtain ⟨v, hfollows, hv⟩ := hclosed.follows hresult
    -- What the unit has read is right by induction.
    have hreads : ∀ r ∈ (log.run u.1.id).reads, σ r.1 = r.2 := by
      intro r hr
      obtain ⟨hfinal, v, hv, htarget, hended⟩ :=
        (hclosed.backed hhead hclean r hr).at_rest (h.sound 0)
      have hright := ih ⟨v, hv⟩ ⟨hv, by rw [htarget]; exact hfollows.reads_of_mem hr⟩ hended
      rw [← hfinal, ← htarget]
      exact hright.symm
    rw [hσ.ruled u.1 u.2, hfollows.replay_eq (hplain _) hreads]
    cases hd : f.doomed with
    | false => rw [World.final, show (w.cell _).value = .forced v from hv hd]; rfl
    | true =>
      have hstatus := hclosed.status
      rw [hresult, Frame.outcome_of_doomed hd] at hstatus
      exact (h.sound 0).stored.final_of_fail u.2 hstatus

/-- **Values rest on final values.** In a session over plain recipes, a unit that
has succeeded and was not entered again in its last run has read nothing but
what every caller is given for the cells, so that its own value is its recipe
replayed on their final values. When moreover no caller was given an error, the
recipes do not depend on themselves, and no unit was entered again, callers are
given the one solution of the recipes. No unit is entered again if none rests on
itself through what it reads and through the units of earlier phases. -/
theorem rests_on_final (h : Course k home log w issued) (hplain : ∀ rule, (k.recipe rule).Plain) :
    (∀ u ∈ issued, (w.scheduler home).status? u.id = some .success →
      (log.run u.id).reentered = false →
      (∀ r ∈ (log.run u.id).reads, w.final r.1 = r.2 ∧
        ∀ p, .gave r.1 (.ok p) ∈ log → p.value = r.2) ∧
      ∃ v, (w.cell (k.target u.rule)).value = .forced v ∧
        (k.recipe u.rule).replay w.final = some v) ∧
    ((∀ c x, .gave c (.error x) ∉ log) →
      (∀ u, ¬TransGen (k.Rests issued) u u) ∨
        (∀ u, ¬TransGen (k.Consults issued) u u) ∧ (∀ id, .reentered id ∉ log) →
      (∃! σ, k.Solves issued σ) ∧
        ∀ σ, k.Solves issued σ → ∀ c p, .gave c (.ok p) ∈ log → p.value = σ c) ∧
    ((∀ u, ¬TransGen (k.Rests issued) u u) → ∀ id, .reentered id ∉ log) := by
  refine ⟨fun u hu hs hre => ?_, fun hok hcycle => ?_, h.no_reentry⟩
  · obtain ⟨f, result, hclosed⟩ := h.grounded.ended u hu .success hs rfl
    obtain ⟨rfl, hd, hhead⟩ : result = .ok () ∧ f.doomed = false ∧ f.head = none :=
      f.of_outcome_success (Option.some.inj (hclosed.status.symm.trans hs))
    have hfinal := h.final_of_read hclosed hhead hre
    obtain ⟨v, hfollows, hv⟩ := hclosed.follows rfl
    refine ⟨fun r hr => ⟨hfinal r hr, fun p hp => ?_⟩, v, hv hd, ?_⟩
    · rw [← h.final_of_gave hp, hfinal r hr]
    · rw [hfollows.replay_eq (hplain _) hfinal, hd]
      rfl
  · have hacyclic : ∀ u, ¬TransGen (k.Consults issued) u u := by
      rcases hcycle with hrests | hcycle
      · exact fun u hu => hrests u (TransGen.mono (fun _ _ hr => ⟨hr.1, .inl hr.2⟩) u u hu)
      · exact hcycle.1
    have hre : ∀ id, .reentered id ∉ log := by
      rcases hcycle with hrests | hcycle
      · exact h.no_reentry hrests
      · exact hcycle.2
    have hwf := Rulebook.wellFounded_consults hacyclic
    have hsingle : k.Single issued := fun u hu v hv => (h.sound 0).wired.eq_of_target hu hv
    refine ⟨⟨_, Rulebook.solves_spread hsingle hwf, fun τ hτ => hτ.eq
      (Rulebook.solves_spread hsingle hwf) hwf⟩, fun σ hσ c p hp => ?_⟩
    have hvalue : Final home ⟨log, w, []⟩ c p.value := .inl (h.value_of_gave hp)
    obtain ⟨hfinal, u, hu, rfl, hended⟩ := hvalue.at_rest (h.sound 0)
    rw [← hfinal]
    exact h.final_eq hplain hok hre hwf hσ ⟨u, hu⟩ hended

/-! ## Barriers can close a cycle -/

private theorem probe_ok (h : Course k home log w issued) (hok : ∀ d x, .gave d (.error x) ∉ log)
    (c : S.Key) (limit : Nat) {p : Probe (S.Val c)}
    (hp : (((Action.probe c).start home).run m limit w).2.Gave (.ok p)) (d : S.Key) (x : Error) :
    .gave d (.error x) ∉
      log ++ ((Action.probe c).start home).watch m limit w ++ [.gave c (.ok p)] := by
  intro hmem
  rcases List.mem_append.1 hmem with hmem | hmem
  · have htold := (h.sound 0).told (Action.begins_start _ home)
      (Evaluator.traces_run _ m limit log w) hp
    exact hok d x (htold.advances.gave_mem hmem)
  · cases List.mem_singleton.1 hmem

/-- Cell 1 holds 5. Cell 0 is read off cell 1, and cell 2 is read off cell 0, but
its recipe fails when it reads 0, which is the fallback. -/
private abbrev wary (r : Nat) : Recipe sheet Nat :=
  match r with
  | 0 => .probe (1 : Nat) fun
    | .ok p => .done p.value
    | .error x => .stop x
  | 1 => .done (5 : Nat)
  | _ => .probe (0 : Nat) fun
    | .ok p => if p.value = (0 : Nat) then .fail ⟨.ruleViolation, "", ⟨1, 1⟩⟩ (.done p.value)
      else .done p.value
    | .error x => .stop x

private abbrev waryBook : Rulebook (Recipe.model (S := sheet) id wary) :=
  Recipe.rulebook (S := sheet) id wary

private def waryUnits (p q : Option Phase) : List (WorkUnit Nat) :=
  [⟨0, "a", none, 0, 0⟩, ⟨1, "b", p, 1, 0⟩, ⟨2, "c", q, 2, 0⟩]

private def waryWorld (p q : Option Phase) : World sheet :=
  (waryUnits p q).foldl (fun w u => (w.register 0 u.label u.phase u.rule).1.resolveWith u.rule u)
    { env := (), schedulers := #[{}] }

private theorem course_wary (p q : Option Phase) :
    Course waryBook 0 [.wrote 0 .unset, .wrote 1 .unset, .wrote 2 .unset] (waryWorld p q)
      (waryUnits p q) := by
  have hblank : Blank (S := sheet) 0 { env := (), schedulers := #[{}] } :=
    ⟨by decide, rfl, rfl, fun _ => rfl⟩
  exact (((Course.start _ hblank).setRule (0 : Nat) "a" none rfl).setRule (1 : Nat) "b" p
    rfl).setRule (2 : Nat) "c" q rfl

private theorem plain_wary (r : Nat) : (wary r).Plain := by
  match r with
  | 0 => exact ⟨fun _ => rfl, fun p q h => by simp only [h], fun p => trivial⟩
  | 1 => trivial
  | r + 2 =>
    refine ⟨fun _ => rfl, fun p q h => by simp only [h], fun p => ?_⟩
    dsimp only
    split
    all_goals trivial

private def waryRank : Nat → Nat
  | 0 => 1
  | 1 => 0
  | _ => 2

private theorem rank_lt_of_reads {r : Nat} {c : Nat} (h : (wary r).Reads c) :
    waryRank c < waryRank r := by
  match r, h with
  | 0, .inl h =>
    cases (show (1 : Nat) = c from h)
    exact Nat.zero_lt_one
  | r + 2, .inl h =>
    cases (show (0 : Nat) = c from h)
    exact Nat.one_lt_two
  | 0, .inr ⟨.ok p, h⟩ => exact h.elim
  | 0, .inr ⟨.error x, h⟩ => exact h.elim
  | r + 2, .inr ⟨.ok p, h⟩ =>
    dsimp only at h
    split at h
    all_goals exact h.elim
  | r + 2, .inr ⟨.error x, h⟩ => exact h.elim

private theorem acyclic_wary (issued : List (WorkUnit Nat)) (u : WorkUnit Nat) :
    ¬TransGen (waryBook.Consults issued) u u := by
  have hrank : ∀ v, TransGen (waryBook.Consults issued) u v → waryRank v.rule < waryRank u.rule := by
    intro v h
    induction h with
    | single h => exact rank_lt_of_reads h.2
    | tail _ h ih => exact Nat.lt_trans (rank_lt_of_reads h.2) ih
  exact fun h => Nat.lt_irrefl _ (hrank u h)

private theorem solves_wary (p q : Option Phase) :
    waryBook.Solves (waryUnits p q) fun c => if c ≤ 2 then (5 : Nat) else 99 := by
  refine ⟨fun u hu => ?_, fun c hc => if_neg fun hle => ?_⟩
  · simp only [waryUnits, List.mem_cons, List.not_mem_nil, or_false] at hu
    rcases hu with rfl | rfl | rfl
    all_goals rfl
  · match c, hle with
    | 0, _ => exact hc _ List.mem_cons_self rfl
    | 1, _ => exact hc _ (List.mem_cons_of_mem _ List.mem_cons_self) rfl
    | 2, _ => exact hc _ (List.mem_cons_of_mem _ (List.mem_cons_of_mem _ List.mem_cons_self)) rfl

/-- Without phases, all three cells hold 5. -/
theorem rests_on_final_wary :
    ∃ (log : History sheet) (w : World sheet) (issued : List (WorkUnit Nat)),
      Course waryBook 0 log w issued ∧ .gave 2 (.ok (.ready (5 : Nat))) ∈ log ∧
      (∃! σ, waryBook.Solves issued σ) ∧ (∀ σ, waryBook.Solves issued σ → (5 : Nat) = σ 2) ∧
      (w.cell 2).value = .forced (5 : Nat) ∧ (wary 2).replay w.final = some 5 ∧
      ∀ id, .reentered id ∉ log := by
  have h := course_wary none none
  have h' := h.probe (r := .ok (.ready (5 : Nat))) (0 : Nat) 60 ⟨rfl, rfl⟩
  have h'' := h'.probe (r := .ok (.ready (5 : Nat))) (2 : Nat) 60 ⟨rfl, rfl⟩
  have hok := h'.probe_ok (h.probe_ok (by simp) (0 : Nat) 60 ⟨rfl, rfl⟩) (2 : Nat) 60 ⟨rfl, rfl⟩
  have hrests : ∀ u, ¬TransGen (waryBook.Rests (waryUnits none none)) u u := by
    refine fun u hu => acyclic_wary (waryUnits none none) u (TransGen.mono (fun v u hr => ?_) u u hu)
    refine ⟨hr.1, hr.2.resolve_right ?_⟩
    rintro ⟨p, q, hp, -⟩
    have hu := hr.1
    simp only [waryUnits, List.mem_cons, List.not_mem_nil, or_false] at hu
    rcases hu with rfl | rfl | rfl
    all_goals cases hp
  obtain ⟨hunits, hgets, hnone⟩ := h''.rests_on_final plain_wary
  obtain ⟨hone, hgets⟩ := hgets hok (.inl hrests)
  obtain ⟨-, v, hv, hreplay⟩ := hunits ⟨2, "c", none, 2, 0⟩ (by simp [waryUnits]) rfl rfl
  cases hv
  exact ⟨_, _, _, h'', by simp, hone, fun σ hσ => hgets σ hσ 2 (.ready (5 : Nat)) (by simp), rfl,
    hreplay, hnone hrests⟩

/-- With phases, cell 0 waits for cell 1 and so for the earlier phase of cell 2.
That reads cell 0, which is on the stack and gives its fallback, and fails for
good, although no recipe depends on itself and the solution has 5 there. -/
theorem acyclic_gets_differ :
    ∃ (log : History sheet) (w : World sheet) (issued : List (WorkUnit Nat)) (σ : Nat → Nat),
      Course waryBook 0 log w issued ∧ (∀ r, (waryBook.recipe r).Plain) ∧
      (∀ c x, .gave c (.error x) ∉ log) ∧ (∀ u, ¬TransGen (waryBook.Consults issued) u u) ∧
      waryBook.Solves issued σ ∧ .gave 2 (.ok (.ready (99 : Nat))) ∈ log ∧ σ 2 = 5 := by
  have h := course_wary (some 1) (some 0)
  have h' := h.probe (r := .ok (.ready (5 : Nat))) (0 : Nat) 60 ⟨rfl, rfl⟩
  have h'' := h'.probe (r := .ok (.ready (99 : Nat))) (2 : Nat) 60 ⟨rfl, rfl⟩
  have hok := h'.probe_ok (h.probe_ok (by simp) (0 : Nat) 60 ⟨rfl, rfl⟩) (2 : Nat) 60 ⟨rfl, rfl⟩
  exact ⟨_, _, _, _, h'', plain_wary, hok, acyclic_wary _, solves_wary _ _, by simp, rfl⟩

end Course

end Attribution.Engine
