import Attribution.Analysis
import Attribution.Proofs.Analysis.Chain
import Attribution.Proofs.Engine.Ends
import Mathlib.Data.List.Nodup
import Mathlib.Data.List.Perm.Subperm
/-!
# Cells and their resolvers

`Wired` says how slots, cells, units and pending units belong together: a slot
is taken iff its cell has a resolver, every cell has a resolver of its own that
the scheduler knows, and pending units are resolvers that have not ended. Most
of what happens leaves the wiring alone and touches a single cell (`Edited`);
the exceptions give one cell a new resolver (`Renewed`).
-/

namespace Attribution

open Engine

namespace Engine.World

variable (w : World Attribute.schema)

def slots : Slots :=
  w.env

def content (c : CellKey) : CellValue c.family.Value :=
  (w.cell c).value

def resolver? (c : CellKey) : Option (WorkUnit CellKey) :=
  (w.cell c).resolver

def hooks (c : CellKey) : List String :=
  (w.cell c).hooks

def ledger : Scheduler CellKey :=
  w.scheduler Analysis.home

/-- How far the resolver of a cell has come. -/
def stage (c : CellKey) : Option Status :=
  (w.resolver? c).bind fun u => w.ledger.status? u.id

variable {w} {c : CellKey}

theorem stage_eq {u : WorkUnit CellKey} (h : w.resolver? c = some u) :
    w.stage c = w.ledger.status? u.id := by
  rw [stage, h]
  rfl

theorem exists_of_stage {status : Status} (h : w.stage c = some status) :
    ∃ u, w.resolver? c = some u ∧ w.ledger.status? u.id = some status := by
  cases hu : w.resolver? c with
  | none =>
    rw [stage, hu] at h
    cases h
  | some u => exact ⟨u, rfl, by rw [← stage_eq hu]; exact h⟩

theorem ledger_modifyScheduler (h : Analysis.home < w.schedulers.size)
    (f : Scheduler CellKey → Scheduler CellKey) :
    (w.modifyScheduler Analysis.home f).ledger = f w.ledger :=
  w.scheduler_modifyScheduler_self h f

theorem hooks_setValue (c d : CellKey) (v : CellValue c.family.Value) :
    (w.setValue c v).hooks d = w.hooks d := by
  by_cases h : c = d
  · subst h
    have hcell := congrArg Cell.hooks (w.cell_setValue_self c v)
    exact hcell
  · exact congrArg Cell.hooks (w.cell_setValue_ne v h)

theorem resolver?_setValue (c d : CellKey) (v : CellValue c.family.Value) :
    (w.setValue c v).resolver? d = w.resolver? d := by
  by_cases h : c = d
  · subst h
    have hcell := congrArg Cell.resolver (w.cell_setValue_self c v)
    exact hcell
  · exact congrArg Cell.resolver (w.cell_setValue_ne v h)

theorem content_setValue_self (c : CellKey) (v : CellValue c.family.Value) :
    (w.setValue c v).content c = v :=
  congrArg Cell.value (w.cell_setValue_self c v)

theorem content_setValue_ne {c d : CellKey} (h : d ≠ c) (v : CellValue c.family.Value) :
    (w.setValue c v).content d = w.content d :=
  congrArg Cell.value (w.cell_setValue_ne v h.symm)

theorem stage_setValue (c d : CellKey) (v : CellValue c.family.Value) :
    (w.setValue c v).stage d = w.stage d := by
  rw [stage, resolver?_setValue]
  rfl

end Engine.World

namespace Slots

theorem number_inj {a b : Attribute} {id m : Nat} (h : number a id = number b m) :
    a = b ∧ id = m := by
  have ha := a.rank_lt
  have hb := b.rank_lt
  unfold number at h
  obtain rfl : id = m := by omega
  exact ⟨Attribute.rank_inj (Nat.add_left_cancel h), rfl⟩

theorem family?_take (s : Slots) (c : CellKey) (a : Attribute) (id : NodeId) :
    (s.take c).family? a id =
      if a = c.family.attr ∧ id = c.node then some c.family else s.family? a id := by
  unfold family? take
  rw [Std.TreeMap.getElem?_insert]
  by_cases h : number c.family.attr c.node = number a id
  · obtain ⟨ha, hid⟩ := number_inj h
    rw [if_pos (Nat.compare_eq_eq.2 h), if_pos ⟨ha.symm, hid.symm⟩]
  · have hne : ¬(a = c.family.attr ∧ id = c.node) := by
      rintro ⟨rfl, rfl⟩
      exact h rfl
    rw [if_neg fun heq => h (Nat.compare_eq_eq.1 heq), if_neg hne]

end Slots

namespace Scene

variable (g : Scene)

/-- The unit `u` is fit to be the resolver of the cell `c`. -/
structure Serves (w : World Attribute.schema) (c : CellKey) (u : WorkUnit CellKey) : Prop where
  slot : w.slots.family? c.family.attr c.node = some c.family
  node_lt : c.node < g.outline.size
  standard : ¬g.loose → c.family = .standard c.family.attr
  rule : u.rule = c
  phase : u.phase = c.family.phase
  at_home : u.home = Analysis.home
  known : u.id < w.ledger.entries.size

structure Wired (w : World Attribute.schema) : Prop where
  session : Analysis.home < w.schedulers.size
  live : w.ledger.live = true
  limit : w.ledger.limits.maxDepth = g.depth
  attached : w.slots.detached = false
  hooks : ∀ c, w.hooks c = []
  serves : ∀ c u, w.resolver? c = some u → g.Serves w c u
  taken : ∀ a id f, w.slots.family? a id = some f → f.attr = a ∧ ∃ u, w.resolver? ⟨f, id⟩ = some u
  distinct : ∀ c d u v, w.resolver? c = some u → w.resolver? d = some v → u.id = v.id → c = d
  pending : ∀ p u, (p, u) ∈ w.ledger.pending → w.resolver? u.rule = some u ∧ u.phase = some p ∧
    ∀ status, w.stage u.rule = some status → status.isTerminal = false
  tidy : w.ledger.phases.Tidy

variable {g} {w w' w'' : World Attribute.schema} {c d : CellKey} {u v : WorkUnit CellKey}

theorem Wired.exists_stage (h : g.Wired w) (hu : w.resolver? c = some u) :
    ∃ status, w.stage c = some status := by
  rw [World.stage_eq hu]
  exact w.ledger.exists_status?_of_lt (h.serves c u hu).known

theorem Wired.unset_of_free (h : g.Wired w)
    (hfree : w.slots.family? c.family.attr c.node = none) : w.resolver? c = none := by
  cases hu : w.resolver? c with
  | none => rfl
  | some u =>
    rw [(h.serves c u hu).slot] at hfree
    cases hfree

theorem Wired.length_le (h : g.Wired w) {cells : List CellKey} (hnodup : cells.Nodup)
    (hcells : ∀ c ∈ cells, ∃ u, w.resolver? c = some u) :
    cells.length ≤ 8 * g.outline.size := by
  have hinj : ∀ c ∈ cells, ∀ d ∈ cells,
      Slots.number c.family.attr c.node = Slots.number d.family.attr d.node → c = d := by
    intro c hc d hd heq
    obtain ⟨u, hu⟩ := hcells c hc
    obtain ⟨v, hv⟩ := hcells d hd
    obtain ⟨hattr, hnode⟩ := Slots.number_inj heq
    have hslot := (h.serves c u hu).slot
    rw [hattr, hnode, (h.serves d v hv).slot] at hslot
    obtain ⟨f, id⟩ := c
    obtain ⟨f', m⟩ := d
    cases hnode
    cases hslot
    rfl
  have hmap := hnodup.map_on hinj
  have hsub : cells.map (fun c => Slots.number c.family.attr c.node) ⊆
      List.range (8 * g.outline.size) := by
    intro i hi
    obtain ⟨c, hc, rfl⟩ := List.mem_map.1 hi
    obtain ⟨u, hu⟩ := hcells c hc
    have hlt := (h.serves c u hu).node_lt
    have hrank := c.family.attr.rank_lt
    rw [List.mem_range]
    calc Slots.number c.family.attr c.node
        < 8 * (c.node + 1) := by unfold Slots.number; omega
      _ ≤ 8 * g.outline.size := Nat.mul_le_mul_left 8 hlt
  have hle := (hmap.subperm hsub).length_le
  rw [List.length_map, List.length_range] at hle
  exact hle

end Scene

/-! ## Changes to one cell -/

namespace Engine.World

/-- Wiring and all other cells are as before; units may have ended. -/
structure Edited (c : CellKey) (w w' : World Attribute.schema) : Prop where
  sessions : w'.schedulers.size = w.schedulers.size
  slots : w'.slots = w.slots
  live : w'.ledger.live = w.ledger.live
  limits : w'.ledger.limits = w.ledger.limits
  size : w'.ledger.entries.size = w.ledger.entries.size
  hooks : ∀ d, w'.hooks d = w.hooks d
  resolver : ∀ d, w'.resolver? d = w.resolver? d
  content : ∀ d, d ≠ c → w'.content d = w.content d
  stage : ∀ d, d ≠ c → w'.stage d = w.stage d
  pending : ∀ x ∈ w'.ledger.pending, x ∈ w.ledger.pending
  tidy : w.ledger.phases.Tidy → w'.ledger.phases.Tidy

variable {w w' w'' : World Attribute.schema} {c : CellKey}

theorem Edited.trans (h : Edited c w w') (h' : Edited c w' w'') : Edited c w w'' where
  sessions := h'.sessions.trans h.sessions
  slots := h'.slots.trans h.slots
  live := h'.live.trans h.live
  limits := h'.limits.trans h.limits
  size := h'.size.trans h.size
  hooks d := (h'.hooks d).trans (h.hooks d)
  resolver d := (h'.resolver d).trans (h.resolver d)
  content d hd := (h'.content d hd).trans (h.content d hd)
  stage d hd := (h'.stage d hd).trans (h.stage d hd)
  pending x hx := h.pending x (h'.pending x hx)
  tidy ht := h'.tidy (h.tidy ht)

theorem edited_setValue (w : World Attribute.schema) (v : CellValue c.family.Value) :
    Edited c w (w.setValue c v) where
  sessions := rfl
  slots := rfl
  live := rfl
  limits := rfl
  size := rfl
  hooks d := hooks_setValue c d v
  resolver d := resolver?_setValue c d v
  content _ hd := content_setValue_ne hd v
  stage d _ := stage_setValue c d v
  pending _ hx := hx
  tidy ht := ht

/-- Nothing that counts has changed. -/
structure Same (w w' : World Attribute.schema) : Prop where
  edited : ∀ c, Edited c w w'
  content : ∀ c, w'.content c = w.content c
  stage : ∀ c, w'.stage c = w.stage c

theorem same_of_eq (henv : w'.env = w.env) (hschedulers : w'.schedulers = w.schedulers)
    (hcells : w'.cells = w.cells) : Same w w' := by
  obtain ⟨env, schedulers, cells, evaluators, journal, elsewhere⟩ := w
  obtain ⟨env', schedulers', cells', evaluators', journal', elsewhere'⟩ := w'
  obtain rfl : env' = env := henv
  obtain rfl : schedulers' = schedulers := hschedulers
  obtain rfl : cells' = cells := hcells
  exact ⟨fun _ => ⟨rfl, rfl, rfl, rfl, rfl, fun _ => rfl, fun _ => rfl, fun _ _ => rfl,
    fun _ _ => rfl, fun _ hx => hx, fun ht => ht⟩, fun _ => rfl, fun _ => rfl⟩

theorem Same.refl (w : World Attribute.schema) : Same w w :=
  same_of_eq rfl rfl rfl

theorem same_note (w : World Attribute.schema) (origin : Option Nat) (event : Event) :
    Same w (w.note origin event) :=
  same_of_eq rfl rfl rfl

theorem edited_note (c : CellKey) (w : World Attribute.schema) (origin : Option Nat)
    (event : Event) : Edited c w (w.note origin event) :=
  (same_note w origin event).edited c

theorem Same.trans (h : Same w w') (h' : Same w' w'') : Same w w'' :=
  ⟨fun c => (h.edited c).trans (h'.edited c), fun c => (h'.content c).trans (h.content c),
    fun c => (h'.stage c).trans (h.stage c)⟩

theorem same_modifyScheduler (hhome : Analysis.home < w.schedulers.size)
    {f : Scheduler CellKey → Scheduler CellKey} (hentries : (f w.ledger).entries = w.ledger.entries)
    (hphases : (f w.ledger).phases = w.ledger.phases) (hlive : (f w.ledger).live = w.ledger.live)
    (hlimits : (f w.ledger).limits = w.ledger.limits) :
    Same w (w.modifyScheduler Analysis.home f) := by
  have hledger := ledger_modifyScheduler hhome f
  have hstage : ∀ c, (w.modifyScheduler Analysis.home f).stage c = w.stage c := by
    intro c
    cases hu : w.resolver? c with
    | none =>
      have hu' : (w.modifyScheduler Analysis.home f).resolver? c = none := hu
      rw [stage, stage, hu, hu']
      rfl
    | some u =>
      have hu' : (w.modifyScheduler Analysis.home f).resolver? c = some u := hu
      rw [stage_eq hu, stage_eq hu', hledger, Scheduler.status?, hentries]
      rfl
  refine ⟨fun c => ⟨w.size_modifyScheduler _ _, rfl, ?_, ?_, ?_, fun _ => rfl, fun _ => rfl,
    fun _ _ => rfl, fun d _ => hstage d, fun x hx => ?_, fun ht => ?_⟩, fun _ => rfl, hstage⟩
  · rw [hledger, hlive]
  · rw [hledger, hlimits]
  · rw [hledger, hentries]
  · rw [hledger, Scheduler.pending, hphases] at hx
    exact hx
  · rw [hledger, hphases]
    exact ht

theorem same_report {m : Model Attribute.schema} (hm : ∀ d env, m.receive d env = env)
    (hhome : Analysis.home < w.schedulers.size) (origin : Option Nat) (d : Diagnostic) :
    Same w (w.report m origin Analysis.home d) := by
  apply (same_note w origin (.reported d)).trans
  unfold report
  dsimp only
  split
  · exact same_modifyScheduler (w := w.note origin (.reported d))
      (f := fun s => { s with buffer := s.buffer.push d }) hhome rfl rfl rfl rfl
  · rw [hm]
    exact .refl _

end Engine.World

namespace Scene

variable {g : Scene} {w w' w'' : World Attribute.schema} {c d : CellKey} {u v : WorkUnit CellKey}

theorem Wired.edit (h : g.Wired w) (he : World.Edited c w w')
    (hc : ∀ x ∈ w'.ledger.pending, x.2.rule = c → ∀ status, w'.stage c = some status →
      status.isTerminal = false) : g.Wired w' where
  session := by
    rw [he.sessions]
    exact h.session
  live := by
    rw [he.live]
    exact h.live
  limit := by
    rw [he.limits]
    exact h.limit
  attached := by
    rw [he.slots]
    exact h.attached
  hooks d := by
    rw [he.hooks]
    exact h.hooks d
  serves d u hu := by
    rw [he.resolver] at hu
    obtain ⟨hslot, hnode, hstandard, hrule, hphase, hhome, hknown⟩ := h.serves d u hu
    exact ⟨by rw [he.slots]; exact hslot, hnode, hstandard, hrule, hphase, hhome,
      by rw [he.size]; exact hknown⟩
  taken a id f hf := by
    rw [he.slots] at hf
    obtain ⟨ha, u, hu⟩ := h.taken a id f hf
    exact ⟨ha, u, by rw [he.resolver]; exact hu⟩
  distinct d e u v hu hv := by
    rw [he.resolver] at hu hv
    exact h.distinct d e u v hu hv
  pending p u hu := by
    obtain ⟨hres, hphase, hopen⟩ := h.pending p u (he.pending _ hu)
    refine ⟨by rw [he.resolver]; exact hres, hphase, fun status hs => ?_⟩
    by_cases hrule : u.rule = c
    · exact hc _ hu hrule status (by rw [← hrule]; exact hs)
    · rw [he.stage _ hrule] at hs
      exact hopen status hs
  tidy := he.tidy h.tidy

theorem Wired.edit_content (h : g.Wired w) (he : World.Edited c w w')
    (hstage : w'.stage c = w.stage c) : g.Wired w' := by
  apply h.edit he
  intro x hx hrule status hs
  rw [hstage] at hs
  obtain ⟨-, -, hopen⟩ := h.pending x.1 x.2 (he.pending x hx)
  exact hopen status (by rw [hrule]; exact hs)

theorem Wired.restage (h : g.Wired w) (hu : w.resolver? c = some u)
    {f : Scheduler CellKey → Scheduler CellKey} {status : Status}
    (hstatus : ∀ j, (f w.ledger).status? j = if j = u.id then some status else w.ledger.status? j)
    (hlive : (f w.ledger).live = w.ledger.live) (hlimits : (f w.ledger).limits = w.ledger.limits)
    (hsize : (f w.ledger).entries.size = w.ledger.entries.size)
    (hpending : ∀ x ∈ (f w.ledger).pending, x ∈ w.ledger.pending)
    (htidy : w.ledger.phases.Tidy → (f w.ledger).phases.Tidy) :
    World.Edited c w (w.modifyScheduler Analysis.home f) ∧
      (w.modifyScheduler Analysis.home f).stage c = some status := by
  have hledger := World.ledger_modifyScheduler h.session f
  have hresolver : ∀ d, (w.modifyScheduler Analysis.home f).resolver? d = w.resolver? d :=
    fun _ => rfl
  refine ⟨⟨w.size_modifyScheduler _ _, rfl, ?_, ?_, ?_, fun _ => rfl, hresolver, fun _ _ => rfl,
    fun d hd => ?_, ?_, ?_⟩, ?_⟩
  · rw [hledger, hlive]
  · rw [hledger, hlimits]
  · rw [hledger, hsize]
  · cases hv : w.resolver? d with
    | none =>
      rw [World.stage, World.stage, hresolver, hv]
      rfl
    | some v =>
      have hne : v.id ≠ u.id := fun heq => hd (h.distinct d c v u hv hu heq)
      rw [World.stage_eq hv, World.stage_eq (hresolver d ▸ hv), hledger, hstatus, if_neg hne]
  · rw [hledger]
    exact hpending
  · rw [hledger]
    exact htidy
  · rw [World.stage_eq (hresolver c ▸ hu), hledger, hstatus, if_pos rfl]

theorem Wired.restage_setStatus (h : g.Wired w) (hu : w.resolver? c = some u) (status : Status) :
    World.Edited c w (w.modifyScheduler Analysis.home fun s => s.setStatus u.id status) ∧
      (w.modifyScheduler Analysis.home fun s => s.setStatus u.id status).stage c = some status :=
  h.restage hu (w.ledger.status?_setStatus (h.serves c u hu).known status) rfl rfl
    (w.ledger.size_setStatus u.id status) (fun _ hx => hx) fun ht => ht

theorem Wired.restage_claim (h : g.Wired w) (hu : w.resolver? c = some u) (owner : EvaluatorId) :
    World.Edited c w (w.modifyScheduler Analysis.home fun s => s.claim u.id owner) ∧
      (w.modifyScheduler Analysis.home fun s => s.claim u.id owner).stage c = some .running :=
  h.restage hu (w.ledger.status?_claim (h.serves c u hu).known owner) rfl rfl
    (w.ledger.size_claim u.id owner) (fun _ hx => hx) fun ht => ht

theorem Wired.restage_settle (h : g.Wired w) (hu : w.resolver? c = some u) (status : Status) :
    World.Edited c w (w.modifyScheduler Analysis.home fun s => s.settle u status) ∧
      (w.modifyScheduler Analysis.home fun s => s.settle u status).stage c = some status :=
  h.restage hu (w.ledger.status?_settle (h.serves c u hu).known status) rfl rfl
    (w.ledger.size_settle u status) (fun _ hx => (w.ledger.mem_pending_settle.1 hx).1)
    fun ht => w.ledger.tidy_settle ht u status

theorem Wired.pending_settle (h : g.Wired w) (hu : w.resolver? c = some u) {status : Status}
    (ht : status.isTerminal = true) :
    ∀ x ∈ (w.modifyScheduler Analysis.home fun s => s.settle u status).ledger.pending,
      x.2.rule ≠ c := by
  intro x hx hrule
  have hledger : (w.modifyScheduler Analysis.home fun s => s.settle u status).ledger =
    w.ledger.settle u status := World.ledger_modifyScheduler h.session _
  rw [hledger, Scheduler.mem_pending_settle] at hx
  obtain ⟨hres, hphase, -⟩ := h.pending x.1 x.2 hx.1
  rw [hrule, hu] at hres
  cases hres
  exact hx.2 ⟨ht, hphase, rfl⟩

end Scene

/-! ## New resolvers -/

namespace Engine.World

/-- The cell `c` is empty and has the new unit `u` as its resolver; its slot is
taken, if it was not before. -/
structure Renewed (c : CellKey) (u : WorkUnit CellKey) (w w' : World Attribute.schema) :
    Prop where
  rule : u.rule = c
  phase : u.phase = c.family.phase
  at_home : u.home = Analysis.home
  id : u.id = w.ledger.entries.size
  sessions : w'.schedulers.size = w.schedulers.size
  ledger : w'.ledger = w.ledger.register u
  detached : w'.slots.detached = w.slots.detached
  family : ∀ a id, w'.slots.family? a id =
    if a = c.family.attr ∧ id = c.node then some c.family else w.slots.family? a id
  self : w'.cell c = { value := .unset, resolver := some u, hooks := (w.cell c).hooks }
  other : ∀ d, d ≠ c → w'.cell d = w.cell d

variable {w w' : World Attribute.schema} {c d : CellKey} {u : WorkUnit CellKey}

theorem renewed_create (hhome : Analysis.home < w.schedulers.size) (label : String) :
    Renewed c (w.ledger.nextUnit Analysis.home label c.family.phase c) w
      (({ w with env := w.slots.take c }.register Analysis.home label c.family.phase c).1.resolveWith
        c (w.ledger.nextUnit Analysis.home label c.family.phase c)) where
  rule := rfl
  phase := rfl
  at_home := rfl
  id := rfl
  sessions := w.size_modifyScheduler _ _
  ledger := ledger_modifyScheduler (w := { w with env := w.slots.take c }) hhome _
  detached := rfl
  family a id := w.slots.family?_take c a id
  self := cell_modifyCell_self _ _ _
  other _ hd := cell_modifyCell_ne _ _ hd.symm

theorem renewed_reset (hhome : Analysis.home < w.schedulers.size) (origin : Option Nat)
    (hu : w.resolver? c = some u) (hrule : u.rule = c) (hphase : u.phase = c.family.phase)
    (hat : u.home = Analysis.home)
    (hslot : w.slots.family? c.family.attr c.node = some c.family)
    (ht : (w.unitStatus? u).any Status.isTerminal = true) :
    Renewed c (w.ledger.nextUnit Analysis.home u.label c.family.phase c) w (w.reset origin c) := by
  obtain ⟨id, label, phase, rule, home⟩ := u
  obtain rfl : rule = c := hrule
  obtain rfl : phase = rule.family.phase := hphase
  obtain rfl : home = Analysis.home := hat
  rw [reset_eq_of_settled w origin hu ht]
  refine ⟨rfl, rfl, rfl, rfl, w.size_modifyScheduler _ _,
    ledger_modifyScheduler (w := w.setValue rule .unset) hhome _, rfl, fun a id => ?_, ?_,
    fun d hd => ?_⟩
  · split
    · rename_i h
      rw [h.1, h.2]
      exact hslot
    · rfl
  · have hcleared := congrArg (fun cell : Cell Attribute.schema rule => { cell with
      resolver := some (w.ledger.nextUnit Analysis.home label rule.family.phase rule) })
      (w.cell_setValue_self rule .unset)
    exact (cell_modifyCell_self _ _ _).trans hcleared
  · exact (cell_modifyCell_ne _ _ hd.symm).trans (w.cell_setValue_ne .unset hd.symm)

namespace Renewed

variable (h : Renewed c u w w')
include h

theorem resolver_self : w'.resolver? c = some u :=
  congrArg Cell.resolver h.self

theorem resolver (hd : d ≠ c) : w'.resolver? d = w.resolver? d :=
  congrArg Cell.resolver (h.other d hd)

theorem content_self : w'.content c = .unset :=
  congrArg Cell.value h.self

theorem content (hd : d ≠ c) : w'.content d = w.content d :=
  congrArg Cell.value (h.other d hd)

theorem hooks (d : CellKey) : w'.hooks d = w.hooks d := by
  by_cases hd : d = c
  · subst hd
    have hself := congrArg Cell.hooks h.self
    exact hself
  · exact congrArg Cell.hooks (h.other d hd)

theorem stage_self : w'.stage c = some .new := by
  rw [stage_eq h.resolver_self, h.ledger, Scheduler.status?_register, h.id, if_pos rfl]

end Renewed

end Engine.World

namespace Scene

variable {g : Scene} {w w' : World Attribute.schema} {c d : CellKey} {u : WorkUnit CellKey}

theorem Wired.stage_renew (h : g.Wired w) (hn : World.Renewed c u w w') (hd : d ≠ c) :
    w'.stage d = w.stage d := by
  cases hv : w.resolver? d with
  | none =>
    rw [World.stage, World.stage, hn.resolver hd, hv]
    rfl
  | some v =>
    have hlt := (h.serves d v hv).known
    rw [World.stage_eq hv, World.stage_eq ((hn.resolver hd).trans hv), hn.ledger,
      Scheduler.status?_register, if_neg (Nat.ne_of_lt hlt)]

theorem Wired.renew (h : g.Wired w) (hn : World.Renewed c u w w')
    (hnode : c.node < g.outline.size) (hstandard : ¬g.loose → c.family = .standard c.family.attr)
    (hslot : ∀ f, w.slots.family? c.family.attr c.node = some f → f = c.family)
    (hidle : ∀ x ∈ w.ledger.pending, x.2.rule ≠ c) : g.Wired w' where
  session := by
    rw [hn.sessions]
    exact h.session
  live := by
    rw [hn.ledger]
    exact h.live
  limit := by
    rw [hn.ledger]
    exact h.limit
  attached := by
    rw [hn.detached]
    exact h.attached
  hooks d := by
    rw [hn.hooks]
    exact h.hooks d
  serves d v hv := by
    by_cases hd : d = c
    · subst hd
      rw [hn.resolver_self] at hv
      cases hv
      refine ⟨?_, hnode, hstandard, hn.rule, hn.phase, hn.at_home, ?_⟩
      · rw [hn.family, if_pos ⟨rfl, rfl⟩]
      · rw [hn.id, hn.ledger, Scheduler.size_register]
        exact Nat.lt_succ_self _
    · rw [hn.resolver hd] at hv
      obtain ⟨hs, hnode', hstandard', hrule, hphase, hhome, hknown⟩ := h.serves d v hv
      refine ⟨?_, hnode', hstandard', hrule, hphase, hhome, ?_⟩
      · rw [hn.family]
        split
        · rename_i heq
          rw [heq.1, heq.2] at hs
          rw [hslot _ hs]
        · exact hs
      · rw [hn.ledger, Scheduler.size_register]
        exact Nat.lt_succ_of_lt hknown
  taken a id f hf := by
    rw [hn.family] at hf
    split at hf
    · rename_i heq
      cases hf
      exact ⟨heq.1.symm, u, by rw [heq.2]; exact hn.resolver_self⟩
    · rename_i hne
      obtain ⟨ha, v, hv⟩ := h.taken a id f hf
      refine ⟨ha, v, ?_⟩
      have hd : (⟨f, id⟩ : CellKey) ≠ c := by
        rintro rfl
        exact hne ⟨ha.symm, rfl⟩
      rw [hn.resolver hd]
      exact hv
  distinct d e v x hv hx heq := by
    have hnew : ∀ d v, d ≠ c → w'.resolver? d = some v → v.id ≠ u.id := by
      intro d v hd hv heq
      rw [hn.resolver hd] at hv
      have hlt := (h.serves d v hv).known
      rw [heq, hn.id] at hlt
      exact Nat.lt_irrefl _ hlt
    by_cases hd : d = c <;> by_cases he : e = c
    · rw [hd, he]
    · subst hd
      rw [hn.resolver_self] at hv
      cases hv
      exact absurd heq.symm (hnew e x he hx)
    · subst he
      rw [hn.resolver_self] at hx
      cases hx
      exact absurd heq (hnew d v hd hv)
    · rw [hn.resolver hd] at hv
      rw [hn.resolver he] at hx
      exact h.distinct d e v x hv hx heq
  pending p v hv := by
    rw [hn.ledger] at hv
    rcases w.ledger.mem_pending_of_register hv with ⟨hp, rfl⟩ | hv
    · rw [hn.rule]
      refine ⟨hn.resolver_self, hp, fun status hs => ?_⟩
      rw [hn.stage_self] at hs
      cases hs
      rfl
    · have hd := hidle _ hv
      obtain ⟨hres, hp, hopen⟩ := h.pending p v hv
      rw [hn.resolver hd, h.stage_renew hn hd]
      exact ⟨hres, hp, hopen⟩
  tidy := by
    rw [hn.ledger]
    exact h.tidy.register u

end Scene

end Attribution
