import Attribution.Proofs.Engine.Move
import Attribution.Proofs.Reference.Solution
/-!
# Chains of readers

Every unit on the stack of an analysis was asked for by the one below it, or
stands before it at a barrier. So a unit that is asked for while it is on the
stack has led back to itself, which only constants can do: all units above it
are constants on a cycle, and their cells have no value.
-/

namespace Attribution

open Engine

def Engine.Frame.cell (f : Frame Attribute.schema) : CellKey :=
  f.unit.rule

/-- What is analysed and how. In a loose analysis there may be cells of other
families than the attributes' own, and requests for nodes that do not exist. -/
structure Scene where
  outline : Outline
  rules : RuleProvider
  depth : Nat
  loose : Prop

namespace Scene

variable (g : Scene)

def value : (c : CellKey) → c.family.Value
  | ⟨.standard a, id⟩ => g.outline.reference g.rules a id
  | ⟨.word _, _⟩ => (1 : UInt32)

def Lost (c : CellKey) : Prop :=
  g.value c = c.family.sentinel

/-- The resolver of `c` may stand on that of `d`. -/
def Under : CellKey → CellKey → Prop
  | ⟨.standard b, m⟩, ⟨.standard a, id⟩ => g.outline.Feeds g.rules b m a id
  | _, _ => False

/-- The order of cells that do not depend on themselves. -/
def Before : CellKey → CellKey → Prop
  | ⟨.standard a, id⟩, ⟨.standard b, m⟩ => a.phase < b.phase ∨
    (a.phase = b.phase ∧ b ≠ .constant ∧
      Outline.Precedes (g.outline.rank g.rules a id) (g.outline.rank g.rules b m))
  | _, _ => False

def DependsOn (d c : CellKey) : Prop :=
  d.family = .standard .constant ∧ c.family = .standard .constant ∧
    Relation.TransGen (Tree.ofOutline g.outline).Depends d.node c.node

variable {g} {c d e : CellKey}

theorem phase_pos_of_ne_constant {a : Attribute} (h : a ≠ .constant) : 0 < a.phase := by
  cases a with
  | constant => exact absurd rfl h
  | _ => decide

theorem Before.irrefl : ¬g.Before c c := by
  obtain ⟨f, id⟩ := c
  cases f with
  | word a => exact fun h => h
  | standard a =>
    intro h
    rcases h with h | ⟨-, -, h | ⟨-, h⟩⟩
    · exact Nat.lt_irrefl _ h
    · exact Nat.lt_irrefl _ h
    · exact Nat.lt_irrefl _ h

theorem Before.trans (h : g.Before c d) (h' : g.Before d e) : g.Before c e := by
  obtain ⟨f₁, m₁⟩ := c
  obtain ⟨f₂, m₂⟩ := d
  obtain ⟨f₃, m₃⟩ := e
  cases f₁ with
  | word a => exact h.elim
  | standard a =>
  cases f₂ with
  | word b => exact h.elim
  | standard b =>
  cases f₃ with
  | word d => exact h'.elim
  | standard d =>
    rcases h with h | ⟨hp, -, hr⟩ <;> rcases h' with h' | ⟨hp', hd, hr'⟩
    · exact .inl (Nat.lt_trans h h')
    · exact .inl (Nat.lt_of_lt_of_eq h hp')
    · exact .inl (hp ▸ h')
    · refine .inr ⟨hp.trans hp', hd, ?_⟩
      unfold Outline.Precedes at hr hr' ⊢
      omega

theorem before_or_dependsOn_of_under (h : g.Under d c) : g.Before c d ∨ g.DependsOn d c := by
  obtain ⟨f, m⟩ := d
  obtain ⟨f', id⟩ := c
  cases f with
  | word b => exact h.elim
  | standard b =>
  cases f' with
  | word a => exact h.elim
  | standard a =>
    rcases h.2 with hp | hr | ⟨rfl, rfl, hd⟩
    · exact .inl (.inl hp)
    · exact .inl (.inr hr)
    · exact .inr ⟨rfl, rfl, .single hd⟩

/-- A constant comes before whatever the constants it depends on come before. -/
theorem Before.of_dependsOn (h : g.Before d e) (hd : g.DependsOn d c) : g.Before c e := by
  obtain ⟨f₁, m₁⟩ := c
  obtain ⟨f₂, m₂⟩ := d
  obtain ⟨f₃, m₃⟩ := e
  obtain ⟨rfl, rfl, -⟩ := hd
  cases f₃ with
  | word b => exact h.elim
  | standard b =>
    rcases h with h | ⟨hp, hb, -⟩
    · exact .inl h
    · exact .inl (phase_pos_of_ne_constant hb)

theorem not_before_constant (hd : d.family = .standard .constant) : ¬g.Before e d := by
  intro h
  obtain ⟨f₂, m₂⟩ := d
  obtain ⟨f₃, m₃⟩ := e
  cases hd
  cases f₃ with
  | word b => exact h
  | standard b =>
    rcases h with h | ⟨-, hb, -⟩
    · exact Nat.not_lt_zero _ h
    · exact hb rfl

theorem constant_of_under (h : g.Under d c) (hd : d.family = .standard .constant) :
    c.family = .standard .constant := by
  rcases before_or_dependsOn_of_under h with hb | hdep
  · exact absurd hb (not_before_constant hd)
  · exact hdep.2.1

theorem before_or_dependsOn (h : Relation.TransGen g.Under d c) :
    g.Before c d ∨ g.DependsOn d c := by
  induction h with
  | single h => exact before_or_dependsOn_of_under h
  | tail _ h ih =>
    rcases before_or_dependsOn_of_under h with h | h
    · rcases ih with ih | ih
      · exact .inl (h.trans ih)
      · exact absurd h (not_before_constant ih.2.1)
    · rcases ih with ih | ih
      · exact .inl (ih.of_dependsOn h)
      · exact .inr ⟨ih.1, h.2.1, ih.2.2.trans h.2.2⟩

theorem lost_of_cycle (h : Relation.TransGen g.Under c c) :
    c.family = .standard .constant ∧ g.Lost c := by
  rcases before_or_dependsOn h with hb | ⟨hf, -, hd⟩
  · exact absurd hb Before.irrefl
  · obtain ⟨f, id⟩ := c
    cases hf
    refine ⟨rfl, ?_⟩
    change g.outline.reference g.rules .constant id = none
    rw [Outline.reference_constant]
    exact Tree.constantOf_of_reachesCycle ⟨id, .refl, hd⟩

theorem phase_le_of_under (h : Relation.TransGen g.Under d c) :
    c.family.attr.phase ≤ d.family.attr.phase := by
  obtain ⟨f, id⟩ := c
  obtain ⟨f', m⟩ := d
  rcases before_or_dependsOn h with hb | ⟨hf, hf', -⟩
  · cases f with
    | word a => exact hb.elim
    | standard a =>
    cases f' with
    | word b => exact hb.elim
    | standard b =>
      rcases hb with hb | ⟨hb, -, -⟩
      · exact Nat.le_of_lt hb
      · exact Nat.le_of_eq hb
  · cases hf
    cases hf'
    exact Nat.le_refl _

/-- Whoever may ask for a unit may ask for what stands before it. -/
theorem Under.earlier (h : g.Under e c) (hd : d.family = .standard d.family.attr)
    (hnode : d.node < g.outline.size) (hlt : d.family.attr.phase < c.family.attr.phase) :
    g.Under e d := by
  have hle := phase_le_of_under (.single h)
  obtain ⟨f₁, m₁⟩ := e
  obtain ⟨f₂, m₂⟩ := d
  cases f₁ with
  | word b => exact h.elim
  | standard b =>
  cases f₂ with
  | word a => cases hd
  | standard a => exact ⟨hnode, .inl (Nat.lt_of_lt_of_le hlt hle)⟩

/-! ## Stacks -/

variable (g)

/-- Each unit stands on one that may ask for it. A unit that is part of a cycle
does not end the cycle, so it stands on a constant. -/
def Linked : List (Frame Attribute.schema) → Prop
  | [] => True
  | [f] => f.head = none
  | f :: e :: rest => g.Under e.cell f.cell ∧
    (f.head.isSome = true → e.cell.family = .standard .constant) ∧ Linked (e :: rest)

def Asks (frames : List (Frame Attribute.schema)) (c : CellKey) : Prop :=
  ∀ f rest, frames = f :: rest → g.Under f.cell c

variable {g} {f h : Frame Attribute.schema} {frames above below : List (Frame Attribute.schema)}

theorem Linked.tail (hl : g.Linked (f :: frames)) : g.Linked frames := by
  cases frames with
  | nil => trivial
  | cons e rest => exact hl.2.2

theorem Linked.push (hl : g.Linked frames) (hc : g.Asks frames f.cell) (hf : f.head = none) :
    g.Linked (f :: frames) := by
  cases frames with
  | nil => exact hf
  | cons e rest =>
    refine ⟨hc e rest rfl, fun hsome => ?_, hl⟩
    rw [hf] at hsome
    cases hsome

theorem Linked.replace {f' : Frame Attribute.schema} (hl : g.Linked (f :: frames))
    (hunit : f'.unit = f.unit) (hhead : f'.head = f.head) : g.Linked (f' :: frames) := by
  cases frames with
  | nil => exact hhead.trans hl
  | cons e rest =>
    unfold Linked Frame.cell at hl ⊢
    rw [hunit, hhead]
    exact hl

theorem Linked.constant_below (hl : g.Linked (f :: frames)) (hf : f.head.isSome = true) :
    f.cell.family = .standard .constant ∧
      ∃ e rest, frames = e :: rest ∧ e.cell.family = .standard .constant := by
  cases frames with
  | nil =>
    rw [show f.head = none from hl] at hf
    cases hf
  | cons e rest => exact ⟨constant_of_under hl.1 (hl.2.1 hf), e, rest, rfl, hl.2.1 hf⟩

theorem Linked.path_up (hl : g.Linked (above ++ h :: below)) :
    ∀ f ∈ above, Relation.TransGen g.Under h.cell f.cell := by
  induction above with
  | nil =>
    intro f hf
    cases hf
  | cons t rest ih =>
    have hrest := ih (Linked.tail hl)
    intro f hf
    rcases List.mem_cons.1 hf with rfl | hf
    · cases rest with
      | nil => exact .single hl.1
      | cons e rest => exact (hrest e List.mem_cons_self).tail hl.1
    · exact hrest f hf

theorem Linked.path (hl : g.Linked frames) (hc : g.Asks frames c) (hf : f ∈ frames) :
    Relation.TransGen g.Under f.cell c := by
  obtain ⟨above, below, rfl⟩ := List.append_of_mem hf
  cases above with
  | nil => exact .single (hc f below rfl)
  | cons t rest => exact (hl.path_up t List.mem_cons_self).tail (hc t _ rfl)

/-- A unit that is asked for again is on a cycle with all units above it. -/
theorem Linked.lost_of_asked (hl : g.Linked (above ++ h :: below))
    (hc : g.Asks (above ++ h :: below) h.cell) :
    ∀ f ∈ h :: above, f.cell.family = .standard .constant ∧ g.Lost f.cell := by
  intro f hf
  apply lost_of_cycle
  rcases List.mem_cons.1 hf with rfl | hf
  · exact hl.path hc (by simp)
  · exact (hl.path hc (List.mem_append_left _ hf)).trans (hl.path_up f hf)

theorem Linked.joinCycle {index : Nat} (hl : g.Linked (above ++ h :: below))
    (hconst : ∀ f ∈ h :: above, f.cell.family = .standard .constant) :
    g.Linked (above.map (Frame.joinCycle index) ++ h :: below) := by
  induction above with
  | nil => exact hl
  | cons t rest ih =>
    have hrest := ih (Linked.tail hl) fun f hf => hconst f (by
      rcases List.mem_cons.1 hf with rfl | hf
      · exact List.mem_cons_self
      · exact List.mem_cons_of_mem _ (List.mem_cons_of_mem _ hf))
    cases rest with
    | nil => exact ⟨hl.1, fun _ => hconst h List.mem_cons_self, hrest⟩
    | cons e rest => exact ⟨hl.1, fun _ => hconst e (by simp), hrest⟩

end Scene

end Attribution
