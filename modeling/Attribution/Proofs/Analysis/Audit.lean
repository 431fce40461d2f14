import Attribution.Proofs.Analysis.Invariant
import Attribution.Proofs.Reference.Report
import Mathlib.Algebra.BigOperators.Group.Finset.Basic
/-!
# Accounts

What an analysis has reported follows from which units have ended (`Kept`): each of them
has told what is due of its cell, and nobody else has told anything, circular constants
apart. What a unit has told that has not ended yet is on top of that. The accounts are
kept as long as nothing is asked for that is not wanted, no error comes up, and no
cell is cleared.
-/

namespace Attribution

open Engine

theorem Attribute.mem_all (a : Attribute) : a ∈ all := by
  cases a with
  | _ => decide

def Diagnostic.counted (d : Diagnostic) : Multiset Diagnostic :=
  if d.kind = .cyclicDefinition then 0 else {d}

namespace Engine.World

variable (w : World Attribute.schema)

/-- The reports so far, circular constants apart. -/
def reports : Multiset Diagnostic :=
  (w.ledger.buffer.toList.filter fun d => d.kind ≠ .cyclicDefinition : List Diagnostic)

def ended (c : CellKey) : Bool :=
  (w.stage c).any Status.isTerminal

/-- Nothing has changed that the accounts depend on. -/
structure Steady (w w' : World Attribute.schema) : Prop where
  reporter : w'.ledger.reporter = w.ledger.reporter
  buffer : w'.ledger.buffer = w.ledger.buffer
  resolver : ∀ c, w'.resolver? c = w.resolver? c
  ended : ∀ c, w'.ended c = w.ended c
  forced : ∀ c, (w'.content c).isForced = (w.content c).isForced

variable {w} {w' : World Attribute.schema} {c : CellKey} {status : Status}

theorem ended_of_stage (h : w.stage c = some status) : w.ended c = status.isTerminal := by
  rw [ended, h]
  rfl

theorem ended_of_unset (h : w.resolver? c = none) : w.ended c = false := by
  rw [ended, stage, h]
  rfl

theorem exists_of_ended (h : w.ended c = true) :
    ∃ status, w.stage c = some status ∧ status.isTerminal = true :=
  (Option.any_eq_true _ _).1 h

theorem Edited.ended {d : CellKey} (h : Edited c w w') (hd : d ≠ c) : w'.ended d = w.ended d := by
  rw [World.ended, World.ended, h.stage d hd]

theorem Edited.steady (h : Edited c w w') (hreporter : w'.ledger.reporter = w.ledger.reporter)
    (hbuffer : w'.ledger.buffer = w.ledger.buffer) (hended : w'.ended c = w.ended c)
    (hforced : (w'.content c).isForced = (w.content c).isForced) : Steady w w' := by
  refine ⟨hreporter, hbuffer, h.resolver, fun d => ?_, fun d => ?_⟩
  · by_cases hd : d = c
    · rw [hd, hended]
    · exact h.ended hd
  · by_cases hd : d = c
    · rw [hd, hforced]
    · rw [h.content d hd]

theorem steady_note (w : World Attribute.schema) (origin : Option Nat) (event : Event) :
    Steady w (w.note origin event) :=
  ⟨rfl, rfl, fun _ => rfl, fun _ => rfl, fun _ => rfl⟩

theorem ended_setValue (c d : CellKey) (v : CellValue c.family.Value) :
    (w.setValue c v).ended d = w.ended d := by
  rw [ended, ended, stage_setValue]

theorem ledger_report (hhome : Analysis.home < w.schedulers.size)
    (hbuffered : w.ledger.reporter = .buffer) (m : Model Attribute.schema) (origin : Option Nat)
    (d : Diagnostic) : (w.report m origin Analysis.home d).ledger =
      { w.ledger with buffer := w.ledger.buffer.push d } := by
  unfold World.report
  dsimp only
  rw [show ((w.note origin (.reported d)).scheduler Analysis.home).reporter = .buffer from
    hbuffered]
  exact ledger_modifyScheduler (w := w.note origin (.reported d)) hhome _

end Engine.World

namespace Scene

variable (g : Scene)

/-- Whoever wants to know what to report asks for this cell. -/
def Wanted : CellKey → Prop
  | ⟨.standard a, id⟩ => g.outline.Wanted g.rules a id
  | ⟨.word _, _⟩ => True

/-- What the equation of the cell reports. -/
def dues : CellKey → Multiset Diagnostic
  | ⟨.standard a, id⟩ => (g.outline.subject g.rules).dues (g.outline.live g.rules) a id
  | ⟨.word _, _⟩ => 0

def needs : CellKey → List CellKey
  | ⟨.standard a, id⟩ => g.outline.needs g.rules a id
  | ⟨.word _, _⟩ => []

/-- What the units that have ended have told. -/
def owed (w : World Attribute.schema) : Multiset Diagnostic :=
  ∑ x ∈ Attribute.all.toFinset ×ˢ Finset.range g.outline.size,
    if w.ended ⟨.standard x.1, x.2⟩ then g.dues ⟨.standard x.1, x.2⟩ else 0

/-- The accounts are in order; `told` is what units have told that have not ended. A
cell holds its final value as soon as its resolver has ended. -/
structure Kept (w : World Attribute.schema) (told : Multiset Diagnostic) : Prop where
  buffered : w.ledger.reporter = .buffer
  balance : w.reports = g.owed w + told
  wanted : ∀ c u, w.resolver? c = some u → g.Wanted c
  needs : ∀ c, w.ended c = true → ∀ d ∈ g.needs c, w.ended d = true
  forced : ∀ c, (w.content c).isForced = true ↔ w.ended c = true

variable {g} {w w' : World Attribute.schema} {c : CellKey} {u : WorkUnit CellKey}
  {told : Multiset Diagnostic}

theorem Wired.steady_restage (h : g.Wired w) {f : Scheduler CellKey → Scheduler CellKey}
    {status status' : Status} (he : World.Edited c w (w.modifyScheduler Analysis.home f))
    (hreporter : (f w.ledger).reporter = w.ledger.reporter)
    (hbuffer : (f w.ledger).buffer = w.ledger.buffer) (hs : w.stage c = some status)
    (ht : status.isTerminal = false)
    (hs' : (w.modifyScheduler Analysis.home f).stage c = some status')
    (ht' : status'.isTerminal = false) : World.Steady w (w.modifyScheduler Analysis.home f) := by
  have hledger := World.ledger_modifyScheduler h.session f
  refine he.steady ?_ ?_ ?_ rfl
  · rw [hledger, hreporter]
  · rw [hledger, hbuffer]
  · rw [World.ended_of_stage hs, World.ended_of_stage hs', ht, ht']

theorem dues_constant (hc : c.family = .standard .constant) : g.dues c = 0 := by
  obtain ⟨f, id⟩ := c
  cases hc
  rfl

theorem owed_congr (h : ∀ a id, w'.ended ⟨.standard a, id⟩ = w.ended ⟨.standard a, id⟩) :
    g.owed w' = g.owed w := by
  unfold owed
  simp only [h]

theorem owed_settle (hother : ∀ d, d ≠ c → w'.ended d = w.ended d) (hbefore : w.ended c = false)
    (hafter : w'.ended c = true) (hnode : c.node < g.outline.size) :
    g.owed w' = g.owed w + g.dues c := by
  obtain ⟨f, id⟩ := c
  cases f with
  | word a =>
    change g.owed w' = g.owed w + 0
    rw [Multiset.add_zero]
    exact owed_congr fun b m => hother ⟨.standard b, m⟩ nofun
  | standard a =>
    have hall : a ∈ Attribute.all.toFinset := List.mem_toFinset.2 a.mem_all
    unfold owed
    -- A closed set of attributes would be evaluated over and over.
    generalize Attribute.all.toFinset = attributes at hall ⊢
    have hmem := Finset.mk_mem_product hall (Finset.mem_range.2 hnode)
    generalize attributes ×ˢ Finset.range g.outline.size = cells at hmem ⊢
    have hrest : ∀ x ∈ cells.erase (a, id),
        w'.ended ⟨.standard x.1, x.2⟩ = w.ended ⟨.standard x.1, x.2⟩ := by
      intro x hx
      apply hother
      intro heq
      apply Finset.ne_of_mem_erase hx
      cases heq
      rfl
    rw [← Finset.add_sum_erase _ _ hmem, ← Finset.add_sum_erase _ _ hmem, hbefore, hafter,
      if_pos rfl, if_neg Bool.false_ne_true, Multiset.zero_add, Multiset.add_comm,
      Finset.sum_congr rfl fun x hx => by rw [hrest x hx]]

namespace Kept

theorem steady (h : g.Kept w told) (hs : World.Steady w w') : g.Kept w' told where
  buffered := by
    rw [hs.reporter]
    exact h.buffered
  balance := by
    rw [World.reports, hs.buffer, owed_congr fun _ _ => hs.ended _]
    exact h.balance
  wanted c u hu := by
    rw [hs.resolver] at hu
    exact h.wanted c u hu
  needs c hc d hd := by
    rw [hs.ended] at hc ⊢
    exact h.needs c hc d hd
  forced c := by
    rw [hs.forced, hs.ended]
    exact h.forced c

theorem not_forced (h : g.Kept w told) (hc : w.ended c = false) :
    (w.content c).isForced = false := by
  rw [Bool.eq_false_iff]
  intro hforced
  rw [(h.forced c).1 hforced] at hc
  cases hc

theorem report (h : g.Kept w told) {m : Model Attribute.schema}
    (hhome : Analysis.home < w.schedulers.size) {origin : Option Nat} {d : Diagnostic}
    (hs : World.Same w (w.report m origin Analysis.home d)) :
    g.Kept (w.report m origin Analysis.home d) (told + d.counted) := by
  have hledger := World.ledger_report hhome h.buffered m origin d
  have hended : ∀ c, (w.report m origin Analysis.home d).ended c = w.ended c := by
    intro c
    rw [World.ended, World.ended, hs.stage]
  refine ⟨?_, ?_, ?_, ?_, ?_⟩
  · rw [hledger]
    exact h.buffered
  · rw [owed_congr fun _ _ => hended _, ← Multiset.add_assoc, ← h.balance, World.reports,
      World.reports, hledger, Array.toList_push, List.filter_append, ← Multiset.coe_add]
    congr 1
    unfold Diagnostic.counted
    split
    · rw [List.filter_cons_of_neg (by simpa)]
      rfl
    · rw [List.filter_cons_of_pos (by simpa)]
      rfl
  · intro c u hu
    rw [(hs.edited c).resolver] at hu
    exact h.wanted c u hu
  · intro c hc e he
    rw [hended] at hc ⊢
    exact h.needs c hc e he
  · intro c
    rw [hs.content, hended]
    exact h.forced c

theorem create (h : g.Kept w told) (hw : g.Wired w) (hn : World.Renewed c u w w')
    (hfree : w.resolver? c = none) (hc : g.Wanted c) : g.Kept w' told := by
  have hended : ∀ d, w'.ended d = w.ended d := by
    intro d
    by_cases hd : d = c
    · rw [hd, World.ended_of_stage hn.stage_self, World.ended_of_unset hfree]
      rfl
    · rw [World.ended, World.ended, hw.stage_renew hn hd]
  refine ⟨?_, ?_, ?_, ?_, ?_⟩
  · rw [hn.ledger]
    exact h.buffered
  · rw [World.reports, hn.ledger, owed_congr fun _ _ => hended _]
    exact h.balance
  · intro d v hv
    by_cases hd : d = c
    · rw [hd]
      exact hc
    · rw [hn.resolver hd] at hv
      exact h.wanted d v hv
  · intro d hd e he
    rw [hended] at hd ⊢
    exact h.needs d hd e he
  · intro d
    rw [hended]
    by_cases hd : d = c
    · subst hd
      rw [hn.content_self, World.ended_of_unset hfree]
      exact Iff.rfl
    · rw [hn.content hd]
      exact h.forced d

theorem settle (h : g.Kept w (told + g.dues c)) (hneeds : ∀ d ∈ g.needs c, w.ended d = true)
    (he : World.Edited c w w') (hreporter : w'.ledger.reporter = w.ledger.reporter)
    (hbuffer : w'.ledger.buffer = w.ledger.buffer) (hnode : c.node < g.outline.size)
    (hbefore : w.ended c = false) (hafter : w'.ended c = true)
    (hforced : (w'.content c).isForced = true) : g.Kept w' told := by
  have hmono : ∀ d, w.ended d = true → w'.ended d = true := by
    intro d hd
    by_cases heq : d = c
    · rw [heq]
      exact hafter
    · rw [he.ended heq]
      exact hd
  refine ⟨?_, ?_, ?_, ?_, ?_⟩
  · rw [hreporter]
    exact h.buffered
  · rw [World.reports, hbuffer, owed_settle (fun _ => he.ended) hbefore hafter hnode]
    exact h.balance.trans (by rw [Multiset.add_comm told, Multiset.add_assoc])
  · intro d u hu
    rw [he.resolver] at hu
    exact h.wanted d u hu
  · intro d hd e hmem
    by_cases heq : d = c
    · subst heq
      exact hmono e (hneeds e hmem)
    · rw [he.ended heq] at hd
      exact hmono e (h.needs d hd e hmem)
  · intro d
    by_cases heq : d = c
    · subst heq
      rw [hforced, hafter]
    · rw [he.content d heq, he.ended heq]
      exact h.forced d

end Kept

end Scene

end Attribution
