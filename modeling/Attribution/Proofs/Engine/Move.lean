import Attribution.Engine.Step
import Attribution.Proofs.Engine.Table
/-!
# Moves

Everything that one step of an evaluator can do to the table of its scheduler
and to its own stack. There are eight kinds of moves; whatever else a step
does (cells, hooks, reports, events, answers) leaves both alone. Properties of
statuses, owners and stacks are proved from `stepped_of_step` alone, without
another look at `Evaluator.step`.
-/

namespace Attribution.Engine

variable {S : Schema} {α : Type}

namespace Scheduler

variable {ρ : Type} {s t : Scheduler ρ}

/-- The part of a scheduler that says which units there are and how they are. -/
def table (s : Scheduler ρ) : Roll Entry × Registry ρ :=
  (s.entries, s.phases)

theorem entries_eq_of_table (h : s.table = t.table) : s.entries = t.entries :=
  congrArg Prod.fst h

theorem phases_eq_of_table (h : s.table = t.table) : s.phases = t.phases :=
  congrArg Prod.snd h

theorem pending_eq_of_table (h : s.table = t.table) : s.pending = t.pending := by
  rw [pending, pending, phases_eq_of_table h]

theorem status?_eq_of_table (h : s.table = t.table) (id : UnitId) :
    s.status? id = t.status? id := by
  rw [status?, status?, entries_eq_of_table h]

theorem owner?_eq_of_table (h : s.table = t.table) (id : UnitId) : s.owner? id = t.owner? id := by
  rw [owner?, owner?, entries_eq_of_table h]

theorem hasEarlier_eq_of_table (h : s.table = t.table) (phase : Phase) :
    s.hasEarlier phase = t.hasEarlier phase := by
  rw [hasEarlier, hasEarlier, phases_eq_of_table h]

end Scheduler

namespace Evaluator

def request? (e : Evaluator S α) : Option (Request S) :=
  match e.writes, e.focus with
  | [], .act (.top (.ask r _)) => some r
  | [], .act (.body (.ask r _)) => some r
  | _, _ => none

/-- The running code names a unit: it asks for it, or makes it a resolver. -/
def Asks (e : Evaluator S α) (u : WorkUnit S.Rule) : Prop :=
  e.request? = some (.attempt u) ∨ ∃ c, e.request? = some (.resolveWith c u)

def registers (w : World S) (e : Evaluator S α) : List (WorkUnit S.Rule) :=
  match e.request? with
  | some (.register label phase rule) =>
    [(w.scheduler e.home).nextUnit e.home label phase rule]
  | some (.reset c) =>
    match (w.cell c).resolver with
    | none => []
    | some u =>
      if (w.unitStatus? u).any Status.isTerminal then
        [(w.scheduler u.home).nextUnit u.home u.label u.phase u.rule]
      else []
  | _ => []

end Evaluator

def Focus.Mentions (u : WorkUnit S.Rule) : Focus S α → Prop
  | .enter v | .blocked v | .barrier v _ => v = u
  | _ => False

def Level.Mentions (u : WorkUnit S.Rule) : Level S α → Prop
  | .helping v _ b _ => v = u ∨ b = u
  | _ => False

def Evaluator.Mentions (e : Evaluator S α) (u : WorkUnit S.Rule) : Prop :=
  e.focus.Mentions u ∨ ∃ level ∈ e.levels, level.Mentions u

/-! ## Positions on a stack -/

namespace Frame

theorem indexOf?_eq_none_iff {id : UnitId} {frames : List (Frame S)} :
    indexOf? id frames = none ↔ ∀ f ∈ frames, f.unit.id ≠ id := by
  induction frames with
  | nil => simp [indexOf?]
  | cons f rest ih =>
    rw [indexOf?]
    split
    · rename_i hf
      simp [hf]
    · rename_i hf
      simp [ih, hf]

/-- A position found on a stack is that of the topmost frame of the unit. -/
theorem exists_of_indexOf? {id : UnitId} {frames : List (Frame S)} {index : Nat}
    (h : indexOf? id frames = some index) :
    ∃ above f below, frames = above ++ f :: below ∧ f.unit.id = id ∧ below.length = index := by
  induction frames with
  | nil => cases h
  | cons f rest ih =>
    rw [indexOf?] at h
    split at h
    · rename_i hf
      exact ⟨[], f, rest, rfl, hf, Option.some.inj h⟩
    · obtain ⟨above, g, below, rfl, hg, hl⟩ := ih h
      exact ⟨f :: above, g, below, rfl, hg, hl⟩

theorem joinCycleAbove_append {index : Nat} (above : List (Frame S)) (f : Frame S)
    {below : List (Frame S)} (h : below.length = index) :
    joinCycleAbove index (above ++ f :: below) =
      above.map (joinCycle index) ++ f :: below := by
  induction above with
  | nil =>
    rw [List.nil_append, joinCycleAbove, if_neg (by omega)]
    rfl
  | cons g rest ih =>
    rw [List.cons_append, joinCycleAbove, if_pos (by simp; omega), ih]
    rfl

theorem getElem?_reverse_append {above below : List (Frame S)} {f : Frame S} {index : Nat}
    (h : below.length = index) : (above ++ f :: below).reverse[index]? = some f := by
  subst h
  rw [List.reverse_append, List.reverse_cons, List.append_assoc,
    List.getElem?_append_right (by simp)]
  simp

end Frame

/-- What a step does to the table of the scheduler and to the stack of the
evaluator, and which units it registers. -/
inductive Move (s : Scheduler S.Rule) (e : Evaluator S α) :
    Scheduler S.Rule → List (Frame S) → List (WorkUnit S.Rule) → Prop where
  | stay : Move s e s e.frames []
  | fill {f : Frame S} {rest : List (Frame S)} (c : S.Key) (hf : e.frames = f :: rest) :
    Move s e s ({ f with fills := f.fills ++ [c] } :: rest) []
  | register (label : String) (phase : Option Phase) (rule : S.Rule) :
    Move s e (s.register (s.nextUnit e.home label phase rule)) e.frames
      [s.nextUnit e.home label phase rule]
  | claim {u : WorkUnit S.Rule} (he : e.Mentions u) (hu : Frame.indexOf? u.id e.frames = none)
    (hs : s.status? u.id = some .new) (hp : ∀ p, u.phase = some p → s.hasEarlier p = false)
    (hd : e.frames.length < s.limits.maxDepth) :
    Move s e (s.claim u.id e.id) ({ unit := u } :: e.frames) []
  | doom {f : Frame S} {rest : List (Frame S)} (hf : e.frames = f :: rest)
    (hd : f.doomed = false) :
    Move s e (s.setStatus f.unit.id .runningWillFail) ({ f with doomed := true } :: rest) []
  | recur {id : UnitId} {index : Nat} (hi : Frame.indexOf? id e.frames = some index)
    (hs : s.status? id ≠ some .runningWillFail) :
    Move s e (s.setStatus id .runningRecursive) (Frame.joinCycleAbove index e.frames) []
  | join {id : UnitId} {index : Nat} (hi : Frame.indexOf? id e.frames = some index) :
    Move s e s (Frame.joinCycleAbove index e.frames) []
  | settle {f : Frame S} {rest : List (Frame S)} (result : Except Error Unit)
    (hf : e.frames = f :: rest) :
    Move s e (s.settle f.unit (f.outcome result).1) rest []

/-- A move depends on nothing of a scheduler but its table and its limits. -/
theorem Move.congr {s t s' : Scheduler S.Rule} {e : Evaluator S α} {frames : List (Frame S)}
    {units : List (WorkUnit S.Rule)} (h : s.table = t.table) (hl : s.limits = t.limits)
    (hm : Move s e s' frames units) : ∃ t', Move t e t' frames units ∧ s'.table = t'.table := by
  have he := Scheduler.entries_eq_of_table h
  have hp := Scheduler.phases_eq_of_table h
  have hst := Scheduler.status?_eq_of_table h
  cases hm with
  | stay => exact ⟨t, .stay, h⟩
  | fill c hf => exact ⟨t, .fill c hf, h⟩
  | register label phase rule =>
    have hnext : s.nextUnit e.home label phase rule = t.nextUnit e.home label phase rule := by
      rw [Scheduler.nextUnit, Scheduler.nextUnit, he]
    rw [hnext]
    refine ⟨_, .register label phase rule, ?_⟩
    simp only [Scheduler.table, Scheduler.register, he, hp]
  | claim hm hu hs hearlier hd =>
    refine ⟨_, .claim hm hu (by rw [← hst]; exact hs) (fun p hup => ?_)
      (by rw [← hl]; exact hd), ?_⟩
    · rw [← Scheduler.hasEarlier_eq_of_table h]
      exact hearlier p hup
    · simp only [Scheduler.table, Scheduler.claim, he, hp]
  | doom hf hd =>
    refine ⟨_, .doom hf hd, ?_⟩
    simp only [Scheduler.table, Scheduler.setStatus, Scheduler.owner?, he, hp]
  | recur hi hs =>
    refine ⟨_, .recur hi (by rw [← hst]; exact hs), ?_⟩
    simp only [Scheduler.table, Scheduler.setStatus, Scheduler.owner?, he, hp]
  | join hi => exact ⟨t, .join hi, h⟩
  | settle result hf =>
    refine ⟨_, .settle result hf, ?_⟩
    simp only [Scheduler.table, Scheduler.settle, he, hp]

structure Stepped (w : World S) (e : Evaluator S α) (w' : World S) (e' : Evaluator S α) :
    Prop where
  id : e'.id = e.id
  home : e'.home = e.home
  size : w'.schedulers.size = w.schedulers.size
  evaluators : w'.evaluators = w.evaluators
  move : ∃ s', Move (w.scheduler e.home) e s' e'.frames (e.registers w) ∧
    (w'.scheduler e.home).table = s'.table
  resolver : ∀ c u, (w'.cell c).resolver = some u →
    (w.cell c).resolver = some u ∨ u ∈ e.registers w ∨ e.Asks u
  mentions : ∀ u, e'.Mentions u → e.Mentions u ∨ e.Asks u ∨
    (∃ c, (w.cell c).resolver = some u) ∨ ∃ p, (p, u) ∈ (w.scheduler e.home).pending

/-! ## Worlds with the same tables -/

/-- Two worlds that differ in neither units nor resolvers, as far as the
scheduler `home` is concerned. -/
structure World.Alike (home : SchedulerId) (w w' : World S) : Prop where
  size : w'.schedulers.size = w.schedulers.size
  evaluators : w'.evaluators = w.evaluators
  table : (w'.scheduler home).table = (w.scheduler home).table
  resolver : ∀ c, (w'.cell c).resolver = (w.cell c).resolver

namespace World

variable {home : SchedulerId}

theorem Alike.refl (w : World S) : w.Alike home w :=
  ⟨rfl, rfl, rfl, fun _ => rfl⟩

theorem Alike.trans {u v w : World S} (h : u.Alike home v) (h' : v.Alike home w) :
    u.Alike home w :=
  ⟨h'.size.trans h.size, h'.evaluators.trans h.evaluators, h'.table.trans h.table,
    fun c => (h'.resolver c).trans (h.resolver c)⟩

theorem alike_note (w : World S) (origin : Option Nat) (e : Event) :
    w.Alike home (w.note origin e) :=
  ⟨rfl, rfl, rfl, fun _ => rfl⟩

theorem alike_modifyCell (w : World S) (c : S.Key) (f : Cell S c → Cell S c)
    (hf : ∀ cell, (f cell).resolver = cell.resolver) : w.Alike home (w.modifyCell c f) := by
  refine ⟨rfl, rfl, rfl, fun d => ?_⟩
  by_cases h : c = d
  · subst h
    rw [cell_modifyCell_self, hf]
  · rw [cell_modifyCell_ne w f h]

theorem alike_setValue (w : World S) (c : S.Key) (v : CellValue (S.Val c)) :
    w.Alike home (w.setValue c v) :=
  w.alike_modifyCell c _ fun _ => rfl

theorem alike_soften (w : World S) (origin : Option Nat) (c : S.Key) (v : S.Val c) :
    w.Alike home (w.soften origin c v) :=
  (w.alike_setValue c _).trans (alike_note _ _ _)

theorem alike_modifyScheduler (w : World S) (i : SchedulerId)
    (f : Scheduler S.Rule → Scheduler S.Rule) (hf : ∀ s, (f s).table = s.table) :
    w.Alike home (w.modifyScheduler i f) := by
  refine ⟨w.size_modifyScheduler i f, rfl, ?_, fun _ => rfl⟩
  rw [scheduler_modifyScheduler]
  split
  · exact hf _
  · rfl

theorem alike_report (m : Model S) (w : World S) (origin : Option Nat) (i : SchedulerId)
    (d : Diagnostic) : w.Alike home (w.report m origin i d) := by
  unfold report
  dsimp only
  split
  · exact (w.alike_note _ _).trans (alike_modifyScheduler _ _ _ fun _ => rfl)
  · exact ⟨rfl, rfl, rfl, fun _ => rfl⟩

theorem alike_foldl_softened (w : World S) (cells : List S.Key) :
    w.Alike home (cells.foldl (fun w c =>
      w.modifyCell c fun cell => { cell with value := cell.value.softened }) w) := by
  induction cells generalizing w with
  | nil => exact .refl w
  | cons c rest ih =>
    rw [List.foldl_cons]
    refine Alike.trans ?_ (ih _)
    exact w.alike_modifyCell c _ fun _ => rfl

end World

/-! ## The move of every step -/

namespace Stepped

variable {w w' : World S} {e e' : Evaluator S α}

theorem of_alike (h : w.Alike e.home w') (hid : e'.id = e.id) (hhome : e'.home = e.home)
    (hframes : e'.frames = e.frames) (hreg : e.registers w = [])
    (hm : ∀ u, e'.Mentions u → e.Mentions u ∨ e.Asks u ∨
      (∃ c, (w.cell c).resolver = some u) ∨ ∃ p, (p, u) ∈ (w.scheduler e.home).pending) :
    Stepped w e w' e' where
  id := hid
  home := hhome
  size := h.size
  evaluators := h.evaluators
  move := ⟨_, by rw [hframes, hreg]; exact .stay, h.table⟩
  resolver c u hu := .inl (by rw [← h.resolver c]; exact hu)
  mentions := hm

theorem of_modify {f : Scheduler S.Rule → Scheduler S.Rule}
    (hmove : Move (w.scheduler e.home) e (f (w.scheduler e.home)) e'.frames (e.registers w))
    (hsize : e.home < w.schedulers.size) (h : (w.modifyScheduler e.home f).Alike e.home w')
    (hid : e'.id = e.id) (hhome : e'.home = e.home)
    (hm : ∀ u, e'.Mentions u → e.Mentions u ∨ e.Asks u ∨
      (∃ c, (w.cell c).resolver = some u) ∨ ∃ p, (p, u) ∈ (w.scheduler e.home).pending) :
    Stepped w e w' e' where
  id := hid
  home := hhome
  size := by rw [h.size, World.size_modifyScheduler]
  evaluators := h.evaluators
  move := ⟨_, hmove, by rw [h.table, World.scheduler_modifyScheduler_self _ hsize]⟩
  resolver c u hu := .inl (by rw [h.resolver c, World.cell_modifyScheduler] at hu; exact hu)
  mentions := hm

theorem of_alike_levels (h : w.Alike e.home w') (hid : e'.id = e.id) (hhome : e'.home = e.home)
    (hframes : e'.frames = e.frames) (hreg : e.registers w = [])
    (hfocus : ∀ u, ¬e'.focus.Mentions u) (hlevels : ∀ l ∈ e'.levels, l ∈ e.levels) :
    Stepped w e w' e' := by
  refine of_alike h hid hhome hframes hreg fun u hu => ?_
  rcases hu with hu | ⟨l, hl, hu⟩
  · exact absurd hu (hfocus u)
  · exact .inl (.inr ⟨l, hlevels l hl, hu⟩)

end Stepped

namespace Evaluator

variable {w : World S} {e : Evaluator S α}

theorem stepped_write (m : Model S) {next : Write S} {rest : List (Write S)}
    (hw : e.writes = next :: rest) :
    Stepped w e (e.write m w next rest).1 (e.write m w next rest).2 := by
  have hreq : e.request? = none := by simp [request?, hw]
  have hreg : e.registers w = [] := by simp [registers, hreq]
  cases next with
  | force c v =>
    refine .of_alike ((w.alike_setValue c _).trans (World.alike_note _ _ _)) rfl rfl rfl hreg ?_
    exact fun u hu => .inl hu
  | notify c h v =>
    refine .of_alike ⟨rfl, rfl, rfl, fun _ => rfl⟩ rfl rfl rfl hreg ?_
    exact fun u hu => .inl hu

theorem stepped_fill (code : Code S α) (c : S.Key) (v : S.Val c) (hreg : e.registers w = []) :
    Stepped w e ((e.resume code).fill w c v).1 ((e.resume code).fill w c v).2 := by
  unfold fill
  dsimp only [resume]
  split
  · rename_i hf
    exact .of_alike_levels (.refl w) rfl rfl rfl hreg (fun _ h => h) fun _ hl => hl
  · rename_i f rest hf
    have hmove : Move (w.scheduler e.home) e (w.scheduler e.home)
        ({ f with fills := f.fills ++ [c] } :: rest) (e.registers w) := by
      rw [hreg]
      exact .fill c hf
    split
    · have ha : w.Alike e.home (w.soften e.worker c v) := w.alike_soften _ _ _
      refine ⟨rfl, rfl, ha.size, ha.evaluators, ⟨_, hmove, ha.table⟩, fun d u hu => .inl ?_,
        fun u hu => .inl (.inr ?_)⟩
      · rw [← ha.resolver d]
        exact hu
      · exact hu.resolve_left fun h => h
    · exact ⟨rfl, rfl, rfl, rfl, ⟨_, hmove, rfl⟩, fun d u hu => .inl hu,
        fun u hu => .inl (.inr (hu.resolve_left fun h => h))⟩

theorem stepped_fail (m : Model S) (code : Code S α) (hhome : e.home < w.schedulers.size)
    (d : Diagnostic) (hreg : e.registers w = []) :
    Stepped w e ((e.resume code).fail m w d).1 ((e.resume code).fail m w d).2 := by
  unfold fail
  dsimp only [resume]
  split
  · exact .of_alike_levels (World.alike_report _ _ _ _ _) rfl rfl rfl hreg (fun _ h => h)
      fun _ hl => hl
  · rename_i f rest hf
    split
    · exact .of_alike_levels (World.alike_note _ _ _) rfl rfl rfl hreg (fun _ h => h)
        fun _ hl => hl
    · rename_i hd
      have ha : (w.modifyScheduler e.home fun s =>
          s.setStatus f.unit.id .runningWillFail).Alike e.home _ :=
        World.alike_report m _ e.worker e.home d
      refine .of_modify ?_ hhome ha rfl rfl fun u hu => .inl (.inr (hu.resolve_left fun h => h))
      rw [hreg]
      exact .doom hf (by simpa using hd)

theorem stepped_startProbe (c : S.Key) (next : Except Error (Probe (S.Val c)) → Code S α)
    (hreg : e.registers w = []) : Stepped w e w (e.startProbe w c next) := by
  unfold startProbe
  dsimp only
  split
  · exact .of_alike_levels (.refl w) rfl rfl rfl hreg (fun _ h => h) fun _ hl => hl
  · rename_i u hu _
    refine .of_alike (.refl w) rfl rfl rfl hreg fun v hv => ?_
    rcases hv with hv | ⟨l, hl, hv⟩
    · exact .inr (.inr (.inl ⟨c, by rw [hu]; exact congrArg some hv⟩))
    · rcases List.mem_cons.1 hl with rfl | hl
      · exact hv.elim
      · exact .inl (.inr ⟨l, hl, hv⟩)
  · exact .of_alike_levels (.refl w) rfl rfl rfl hreg (fun _ h => h) fun _ hl => hl
  · exact .of_alike_levels (.refl w) rfl rfl rfl hreg (fun _ h => h) fun _ hl => hl

/-- A cell that is cleared gets a new resolver exactly when the old one has
ended. -/
theorem stepped_reset {code : Code S α} (hhome : e.home < w.schedulers.size)
    (hres : ∀ c u, (w.cell c).resolver = some u → u.home = e.home) {c : S.Key}
    (hreq : e.request? = some (.reset c)) :
    Stepped w e (w.reset e.worker c) (e.resume code) := by
  have ha : w.Alike e.home (w.setValue c .unset) := w.alike_setValue c .unset
  have hm : ∀ u, (e.resume code).Mentions u → e.Mentions u ∨ e.Asks u ∨
      (∃ c, (w.cell c).resolver = some u) ∨ ∃ p, (p, u) ∈ (w.scheduler e.home).pending :=
    fun u hu => .inl (.inr (hu.resolve_left fun h => h))
  by_cases ht : ∃ u, (w.cell c).resolver = some u ∧
      (w.unitStatus? u).any Status.isTerminal = true
  · obtain ⟨u, hu, ht⟩ := ht
    have huh := hres c u hu
    have hreg : e.registers w =
        [(w.scheduler e.home).nextUnit e.home u.label u.phase u.rule] := by
      simp [registers, hreq, hu, ht, huh]
    rw [w.reset_eq_of_settled _ hu ht, huh]
    refine ⟨rfl, rfl, World.size_modifyScheduler _ _ _, rfl, ?_, fun d v hv => ?_, hm⟩
    · refine ⟨(w.scheduler e.home).register
        ((w.scheduler e.home).nextUnit e.home u.label u.phase u.rule), ?_, ?_⟩
      · rw [hreg]
        exact .register _ _ _
      · exact congrArg Scheduler.table (World.scheduler_modifyScheduler_self _ hhome _)
    · change (World.cell (World.modifyCell _ c _) d).resolver = some v at hv
      by_cases hd : c = d
      · subst hd
        rw [World.cell_modifyCell_self] at hv
        rw [hreg]
        exact .inr (.inl (List.mem_singleton.2 (Option.some.inj hv).symm))
      · rw [World.cell_modifyCell_ne _ _ hd, World.cell_modifyScheduler, ha.resolver d] at hv
        exact .inl hv
  · have ht' : ∀ u, (w.cell c).resolver = some u →
        (w.unitStatus? u).any Status.isTerminal = false :=
      fun u hu => Bool.eq_false_iff.2 fun h => ht ⟨u, hu, h⟩
    have hreg : e.registers w = [] := by
      cases hu : (w.cell c).resolver with
      | none => simp [registers, hreq, hu]
      | some u => simp [registers, hreq, hu, ht' u hu]
    rw [w.reset_eq_of_unsettled _ c ht']
    exact .of_alike (ha.trans (World.alike_note _ _ _)) rfl rfl rfl hreg hm

theorem stepped_serve (m : Model S) (hhome : e.home < w.schedulers.size)
    (hres : ∀ c u, (w.cell c).resolver = some u → u.home = e.home) {r : Request S}
    {next : r.Answer → Code S α} (hreq : e.request? = some r) {w' : World S}
    {e' : Evaluator S α} (h : e.serve m w r next = some (w', e')) : Stepped w e w' e' := by
  cases r with
  | env change =>
    have hreg : e.registers w = [] := by simp [registers, hreq]
    cases h
    exact .of_alike_levels ⟨rfl, rfl, rfl, fun _ => rfl⟩ rfl rfl rfl hreg (fun _ h => h)
      fun _ hl => hl
  | look =>
    have hreg : e.registers w = [] := by simp [registers, hreq]
    cases h
    exact .of_alike_levels (.refl w) rfl rfl rfl hreg (fun _ h => h) fun _ hl => hl
  | register label phase rule =>
    have hreg : e.registers w = [(w.scheduler e.home).nextUnit e.home label phase rule] := by
      simp [registers, hreq]
    cases h
    refine .of_modify ?_ hhome (.refl _) rfl rfl
      fun u hu => .inl (.inr (hu.resolve_left fun h => h))
    rw [hreg]
    exact .register _ _ _
  | resolveWith c u =>
    have hreg : e.registers w = [] := by simp [registers, hreq]
    cases h
    refine ⟨rfl, rfl, rfl, rfl, ⟨_, by rw [hreg]; exact .stay, rfl⟩, fun d v hv => ?_,
      fun v hv => .inl (.inr (hv.resolve_left fun h => h))⟩
    by_cases hd : c = d
    · subst hd
      rw [World.resolveWith, World.cell_modifyCell_self] at hv
      obtain rfl := Option.some.inj hv
      exact .inr (.inr (.inr ⟨c, hreq⟩))
    · rw [World.resolveWith, World.cell_modifyCell_ne _ _ hd] at hv
      exact .inl hv
  | addHook c hook =>
    have hreg : e.registers w = [] := by simp [registers, hreq]
    cases h
    exact .of_alike_levels (w.alike_modifyCell c _ fun _ => rfl) rfl rfl rfl hreg (fun _ h => h)
      fun _ hl => hl
  | attempt u =>
    have hreg : e.registers w = [] := by simp [registers, hreq]
    cases h
    refine .of_alike (.refl w) rfl rfl rfl hreg fun v hv => ?_
    rcases hv with hv | ⟨l, hl, hv⟩
    · obtain rfl : u = v := hv
      exact .inr (.inl (.inl hreq))
    · rcases List.mem_cons.1 hl with rfl | hl
      · exact hv.elim
      · exact .inl (.inr ⟨l, hl, hv⟩)
  | probe c =>
    have hreg : e.registers w = [] := by simp [registers, hreq]
    cases h
    exact stepped_startProbe c next hreg
  | fill c v =>
    have hreg : e.registers w = [] := by simp [registers, hreq]
    have h := Option.some.inj h
    have hfill := stepped_fill (next ()) c v hreg
    rw [h] at hfill
    exact hfill
  | force c v =>
    have hreg : e.registers w = [] := by simp [registers, hreq]
    cases h
    exact .of_alike_levels (.refl w) rfl rfl rfl hreg (fun _ h => h) fun _ hl => hl
  | soften c v =>
    have hreg : e.registers w = [] := by simp [registers, hreq]
    cases h
    exact .of_alike_levels (w.alike_soften _ _ _) rfl rfl rfl hreg (fun _ h => h) fun _ hl => hl
  | reset c =>
    cases h
    exact stepped_reset hhome hres hreq
  | fail d =>
    have hreg : e.registers w = [] := by simp [registers, hreq]
    have h := Option.some.inj h
    have hfail := stepped_fail m (next ()) hhome d hreg
    rw [h] at hfail
    exact hfail
  | report d =>
    have hreg : e.registers w = [] := by simp [registers, hreq]
    cases h
    exact .of_alike_levels (World.alike_report _ _ _ _ _) rfl rfl rfl hreg (fun _ h => h)
      fun _ hl => hl
  | note event =>
    have hreg : e.registers w = [] := by simp [registers, hreq]
    cases h
    exact .of_alike_levels (World.alike_note _ _ _) rfl rfl rfl hreg (fun _ h => h)
      fun _ hl => hl
  | await ready =>
    have hreg : e.registers w = [] := by simp [registers, hreq]
    simp only [serve] at h
    split at h
    · cases h
      exact .of_alike_levels (.refl w) rfl rfl rfl hreg (fun _ h => h) fun _ hl => hl
    · cases h
  | crash =>
    have hreg : e.registers w = [] := by simp [registers, hreq]
    cases h
    exact .of_alike_levels (.refl w) rfl rfl rfl hreg (fun _ h => h) fun _ hl => hl

theorem indexOf?_of_reentered {s : Scheduler S.Rule} {u : WorkUnit S.Rule} {index : Nat}
    (h : e.admission s u = .reentered index) : Frame.indexOf? u.id e.frames = some index := by
  unfold admission at h
  split at h
  · rename_i hi
    cases h
    exact hi
  · repeat' split at h
    all_goals cases h

theorem indexOf?_of_crossed {s : Scheduler S.Rule} {u : WorkUnit S.Rule} {status : Status}
    {index : Nat} (h : e.admission s u = .crossed status index) :
    ∃ id, Frame.indexOf? id e.frames = some index := by
  unfold admission at h
  repeat' split at h
  all_goals try cases h
  rename_i hi
  obtain ⟨id, -, hi⟩ := Option.bind_eq_some_iff.1 hi
  exact ⟨id, hi⟩

theorem claimable_of_granted {s : Scheduler S.Rule} {u : WorkUnit S.Rule}
    (h : e.admission s u = .granted) :
    Frame.indexOf? u.id e.frames = none ∧ s.status? u.id = some .new ∧
      (∀ p, u.phase = some p → s.hasEarlier p = false) ∧
      e.frames.length < s.limits.maxDepth := by
  unfold admission at h
  repeat' split at h
  all_goals try cases h
  rename_i hi _ hs _ hp hd
  refine ⟨hi, hs, fun p hup => ?_, Nat.lt_of_not_le hd⟩
  rw [hup] at hp
  simpa [Option.filter] using hp

theorem stepped_enter (m : Model S) (hhome : e.home < w.schedulers.size) {u : WorkUnit S.Rule}
    (hu : e.Mentions u) (hreg : e.registers w = []) :
    Stepped w e (e.enter m w u).1 (e.enter m w u).2 := by
  unfold enter
  dsimp only
  cases hadm : e.admission (w.scheduler e.home) u with
  | reentered index =>
    dsimp only
    split
    · exact .of_alike_levels (.refl w) rfl rfl rfl hreg (fun _ h => h) fun _ hl => hl
    · rename_i hs
      refine .of_modify ?_ hhome (World.alike_note _ _ _) rfl rfl
        fun v hv => .inl (.inr (hv.resolve_left fun h => h))
      rw [hreg]
      exact .recur (indexOf?_of_reentered hadm) hs
  | unknown => exact .of_alike_levels (.refl w) rfl rfl rfl hreg (fun _ h => h) fun _ hl => hl
  | settled outcome =>
    exact .of_alike_levels (.refl w) rfl rfl rfl hreg (fun _ h => h) fun _ hl => hl
  | behind phase =>
    refine .of_alike (.refl w) rfl rfl rfl hreg fun v hv => .inl ?_
    rcases hv with rfl | hv
    · exact hu
    · exact .inr hv
  | tooDeep limit =>
    exact .of_alike_levels (.refl w) rfl rfl rfl hreg (fun _ h => h) fun _ hl => hl
  | granted =>
    refine .of_modify ?_ hhome (World.alike_note _ _ _) rfl rfl fun v hv => .inl ?_
    · obtain ⟨hi, hs, hp, hd⟩ := claimable_of_granted hadm
      rw [hreg]
      exact .claim hu hi hs hp hd
    · obtain ⟨l, hl, hv⟩ := hv.resolve_left fun h => h
      rcases List.mem_cons.1 hl with rfl | hl
      · exact hv.elim
      · exact .inr ⟨l, hl, hv⟩
  | crossed status index =>
    obtain ⟨id, hi⟩ := indexOf?_of_crossed hadm
    obtain ⟨above, head, below, hframes, rfl, hbelow⟩ := Frame.exists_of_indexOf? hi
    have hhead : e.frames.reverse[index]? = some head := by
      rw [hframes]
      exact Frame.getElem?_reverse_append hbelow
    cases status with
    | runningWillFail =>
      exact .of_alike_levels (.refl w) rfl rfl rfl hreg (fun _ h => h) fun _ hl => hl
    | _ =>
      dsimp only
      rw [hhead]
      dsimp only
      refine .of_modify ?_ hhome (World.alike_note _ _ _) rfl rfl
        fun v hv => .inl (.inr (hv.resolve_left fun h => h))
      rw [hreg]
      split
      · rename_i hrun
        exact .recur hi (by rw [hrun]; decide)
      · exact .join hi
  | busy =>
    refine .of_alike (World.alike_modifyScheduler _ _ _ fun _ => rfl) rfl rfl rfl hreg
      fun v hv => .inl ?_
    rcases hv with rfl | hv
    · exact hu
    · exact .inr hv

theorem stepped_passBarrier {pick : Nat} {u : WorkUnit S.Rule} {phase : Phase}
    (hu : e.Mentions u) (hreg : e.registers w = []) {w' : World S} {e' : Evaluator S α}
    (h : e.passBarrier pick w u phase = some (w', e')) : Stepped w e w' e' := by
  have hmem : ∀ x ∈ (w.scheduler e.home).earlierUnits phase,
      x ∈ (w.scheduler e.home).pending :=
    fun x hx => ((w.scheduler e.home).mem_earlierUnits.1 hx).1
  unfold passBarrier at h
  dsimp only at h
  split at h
  · cases h
    refine .of_alike (.refl w) rfl rfl rfl hreg fun v hv => .inl ?_
    rcases hv with rfl | hv
    · exact hu
    · exact .inr hv
  · split at h
    · cases h
      exact .of_alike_levels (.refl w) rfl rfl rfl hreg (fun _ h => h) fun _ hl => hl
    · split at h
      · rename_i earlier b hb
        cases h
        have hpending : (earlier, b) ∈ (w.scheduler e.home).pending :=
          hmem _ (List.mem_filter.1 (List.mem_of_getElem? hb)).1
        refine .of_alike (World.alike_note _ _ _) rfl rfl rfl hreg fun v hv => ?_
        rcases hv with hv | ⟨l, hl, hv⟩
        · obtain rfl : b = v := hv
          exact .inr (.inr (.inr ⟨earlier, hpending⟩))
        · rcases List.mem_cons.1 hl with rfl | hl
          · rcases hv with rfl | rfl
            · exact .inl hu
            · exact .inr (.inr (.inr ⟨earlier, hpending⟩))
          · exact .inl (.inr ⟨l, hl, hv⟩)
      · cases h

theorem stepped_close (result : Except Error Unit) (hreg : e.registers w = []) :
    Stepped w e (e.close w result).1 (e.close w result).2 := by
  unfold close
  dsimp only
  split
  · split
    · exact .of_alike_levels (.refl w) rfl rfl rfl hreg (fun _ h => h) fun _ hl => hl
    · split
      · exact .of_alike_levels (w.alike_foldl_softened _) rfl rfl rfl hreg (fun _ h => h)
          fun _ hl => hl
      · exact .of_alike_levels (.refl w) rfl rfl rfl hreg (fun _ h => h) fun _ hl => hl
  · exact .of_alike_levels (.refl w) rfl rfl rfl hreg (fun _ h => h) fun _ hl => hl

theorem stepped_settle (hhome : e.home < w.schedulers.size) {result : Except Error Unit}
    (hreg : e.registers w = []) {w' : World S} {e' : Evaluator S α}
    (h : e.settle w result = some (w', e')) : Stepped w e w' e' := by
  unfold settle at h
  split at h
  · rename_i f frames levels hf hl
    cases h
    refine .of_modify ?_ hhome (World.alike_note _ _ _) rfl rfl fun v hv => .inl ?_
    · rw [hreg]
      exact .settle result hf
    · obtain ⟨l, hmem, hv⟩ := hv.resolve_left fun h => h
      exact .inr ⟨l, by rw [hl]; exact List.mem_cons_of_mem _ hmem, hv⟩
  · cases h

theorem stepped_finishProbe {levels : List (Level S α)} (hlevels : ∀ l ∈ levels, l ∈ e.levels)
    (c : S.Key) (resolver : String) (next : Except Error (Probe (S.Val c)) → Code S α)
    (outcome : Attempt) (hreg : e.registers w = []) :
    Stepped w e (({ e with levels }).finishProbe w c resolver next outcome).1
      (({ e with levels }).finishProbe w c resolver next outcome).2 := by
  unfold finishProbe
  dsimp only [resume]
  split
  all_goals first
    | exact .of_alike_levels (.refl w) rfl rfl rfl hreg (fun _ h => h) hlevels
    | exact .of_alike_levels (w.alike_soften _ _ _) rfl rfl rfl hreg (fun _ h => h) hlevels
    | exact .of_alike_levels ((w.alike_note _ _).trans (World.alike_soften _ _ _ _)) rfl rfl rfl
        hreg (fun _ h => h) hlevels

theorem stepped_answer {outcome : Except Error Attempt} (hreg : e.registers w = [])
    {w' : World S} {e' : Evaluator S α} (h : e.answer w outcome = some (w', e')) :
    Stepped w e w' e' := by
  unfold answer at h
  split at h
  · rename_i next levels hl
    cases h
    exact .of_alike_levels (.refl w) rfl rfl rfl hreg (fun _ h => h)
      fun l hmem => by rw [hl]; exact List.mem_cons_of_mem _ hmem
  · rename_i c resolver next levels hl
    have hlevels : ∀ l ∈ levels, l ∈ e.levels :=
      fun l hmem => by rw [hl]; exact List.mem_cons_of_mem _ hmem
    split at h
    · cases h
      exact .of_alike_levels (.refl w) rfl rfl rfl hreg (fun _ h => h) hlevels
    · rename_i outcome
      have hfinish := stepped_finishProbe hlevels c resolver next outcome hreg
      rw [Option.some.inj h] at hfinish
      exact hfinish
  · rename_i u phase b earlier levels hl
    have hlevels : ∀ l ∈ levels, l ∈ e.levels :=
      fun l hmem => by rw [hl]; exact List.mem_cons_of_mem _ hmem
    have hu : ∀ v, u = v → e.Mentions v :=
      fun v huv => .inr ⟨.helping u phase b earlier, by rw [hl]; exact List.mem_cons_self,
        .inl huv⟩
    split at h
    · cases h
      exact .of_alike_levels (.refl w) rfl rfl rfl hreg (fun _ h => h) hlevels
    all_goals cases h
    · refine .of_alike (.refl w) rfl rfl rfl hreg fun v hv => .inl ?_
      rcases hv with hv | ⟨l, hmem, hv⟩
      · exact hu v hv
      · exact .inr ⟨l, hlevels l hmem, hv⟩
    · refine .of_alike (.refl w) rfl rfl rfl hreg fun v hv => .inl ?_
      rcases hv with hv | ⟨l, hmem, hv⟩
      · exact hu v hv
      · exact .inr ⟨l, hlevels l hmem, hv⟩
    · exact .of_alike_levels (.refl w) rfl rfl rfl hreg (fun _ h => h) hlevels
  · cases h

/-- **One step.** Whatever a step does, it makes one of the eight moves. -/
theorem stepped_of_step {m : Model S} {pick : Nat} (hhome : e.home < w.schedulers.size)
    (hres : ∀ c u, (w.cell c).resolver = some u → u.home = e.home) {w' : World S}
    {e' : Evaluator S α} (h : e.step m pick w = some (w', e')) : Stepped w e w' e' := by
  unfold step at h
  split at h
  · rename_i next rest hw
    have hwrite := stepped_write (w := w) m hw
    rw [Option.some.inj h] at hwrite
    exact hwrite
  · rename_i hw
    split at h
    · rename_i a hf
      cases h
      have hreg : e.registers w = [] := by simp [registers, request?, hw, hf]
      exact .of_alike_levels (.refl w) rfl rfl rfl hreg (fun _ h => h) fun _ hl => hl
    · rename_i r next hf
      exact stepped_serve m hhome hres (by simp [request?, hw, hf]) h
    · rename_i result hf
      have hreg : e.registers w = [] := by simp [registers, request?, hw, hf]
      have hclose := stepped_close result hreg
      rw [Option.some.inj h] at hclose
      exact hclose
    · rename_i r next hf
      exact stepped_serve m hhome hres (by simp [request?, hw, hf]) h
    · rename_i u hf
      have hreg : e.registers w = [] := by simp [registers, request?, hw, hf]
      have henter := stepped_enter m hhome (.inl (by rw [hf]; rfl) : e.Mentions u) hreg
      rw [Option.some.inj h] at henter
      exact henter
    · rename_i u hf
      have hreg : ∀ v : World S, e.registers v = [] :=
        fun v => by simp [registers, request?, hw, hf]
      have hwake : w.Alike e.home (w.modifyScheduler e.home fun s => s.stopWaiting e.id) :=
        w.alike_modifyScheduler _ _ fun _ => rfl
      have henter := stepped_enter m (by rw [hwake.size]; exact hhome)
        (.inl (by rw [hf]; rfl) : e.Mentions u) (hreg _)
      split at h
      · cases h
      · rw [Option.some.inj h] at henter
        obtain ⟨s', hmove, htable⟩ := henter.move
        have hlimits : ((w.modifyScheduler e.home fun s => s.stopWaiting e.id).scheduler
            e.home).limits = (w.scheduler e.home).limits := by
          rw [World.scheduler_modifyScheduler_self _ hhome]
          rfl
        obtain ⟨t', hmove, hst⟩ := hmove.congr hwake.table hlimits
        refine ⟨henter.id, henter.home, henter.size.trans hwake.size, henter.evaluators,
          ⟨t', ?_, htable.trans hst⟩, fun c v hv => ?_, fun v hv => ?_⟩
        · rw [hreg w, ← hreg (w.modifyScheduler e.home fun s => s.stopWaiting e.id)]
          exact hmove
        · have := henter.resolver c v hv
          rw [hreg] at this
          rw [hreg]
          exact this
        · have := henter.mentions v hv
          rw [Scheduler.pending_eq_of_table hwake.table] at this
          exact this
    · rename_i u phase hf
      have hreg : e.registers w = [] := by simp [registers, request?, hw, hf]
      exact stepped_passBarrier (.inl (by rw [hf]; rfl)) hreg h
    · rename_i result hf
      have hreg : e.registers w = [] := by simp [registers, request?, hw, hf]
      exact stepped_settle hhome hreg h
    · rename_i outcome hf
      have hreg : e.registers w = [] := by simp [registers, request?, hw, hf]
      exact stepped_answer hreg h
    · cases h
    · cases h

end Evaluator

end Attribution.Engine
