import Attribution.Proofs.Analysis.Wiring
/-!
# What cells rely on

The equation of a cell, as long as its reads are answered rightly, reads certain
cells (`Reads`). A `Part` is a set of cells that contains whatever its members
read, so what is known of the values in it does not depend on other cells.

An error ends the units that it passes as failed, although nothing is wrong with
their cells (`CutOff`). Cells that rely on one of these are spoiled; the others
are a part (`Part.spared`).
-/

namespace Attribution

open Engine

/-- The equation comes to read the cell, given answers that agree with the reference. -/
def Equation.Reads {α : Type} (o : Outline) (r : RuleProvider) (c : CellKey) : Equation α → Prop
  | .done _ | .stop _ | .malformed => False
  | .probe a id next => c = ⟨.standard a, id⟩ ∨ ∃ p, o.Exact r a id p ∧ (next p).Reads o r c
  | .fail _ next | .report _ next => next.Reads o r c

namespace Scene

def Reads (g : Scene) (c d : CellKey) : Prop :=
  ((g.outline.subject g.rules).cellEquation c).Reads g.outline g.rules d

/-- What is read on the way to the value of `c`, and `c` itself. -/
def Relies (g : Scene) : CellKey → CellKey → Prop :=
  Relation.ReflTransGen g.Reads

/-- Cells that rely on each other only. -/
structure Part (g : Scene) where
  holds : CellKey → Prop
  closed : ∀ {c d}, g.Reads c d → holds c → holds d

namespace Part

variable {g : Scene}

instance : CoeFun g.Part fun _ => CellKey → Prop :=
  ⟨holds⟩

def all (clean : Prop) : g.Part :=
  ⟨fun _ => clean, fun _ h => h⟩

instance : Coe Prop g.Part :=
  ⟨all⟩

def Whole (part : g.Part) : Prop :=
  ∀ c, part c

/-- The terms on which the equation of an attribute is solved. Where the attribute is in
the part, so is what its equation asks for, and the answers are exact. -/
def terms (part : g.Part) (a : Attribute) (id : NodeId) : Terms where
  asks b m := g.outline.Feeds g.rules a id b m ∧ (part ⟨.standard a, id⟩ → part ⟨.standard b, m⟩)
  answers b m p := part ⟨.standard a, id⟩ → g.outline.Exact g.rules b m p
  fails := part ⟨.standard a, id⟩ → g.outline.reference g.rules a id = a.sentinel

theorem meets_terms (part : g.Part) {a : Attribute} {id : NodeId} {α : Type} {x : Equation α}
    {post : α → Prop}
    (h : x.Meets (g.outline.terms g.rules (part ⟨.standard a, id⟩) a id) post)
    (hreads : part ⟨.standard a, id⟩ → ∀ d, x.Reads g.outline g.rules d → part d) :
    x.Meets (part.terms a id) post := by
  induction x with
  | done v => exact h
  | probe b m next ih =>
    exact ⟨⟨h.1, fun hc => hreads hc _ (.inl rfl)⟩, fun p hp =>
      ih p (h.2 p hp) fun hc d hd => hreads hc d (.inr ⟨p, hp hc, hd⟩)⟩
  | fail d next ih => exact ⟨h.1, ih h.2 hreads⟩
  | report d next ih => exact ih h hreads
  | stop e => exact h
  | malformed => exact h

end Part

theorem equation_meets_terms {g : Scene} (hs : g.outline.Shaped) (part : g.Part) (a : Attribute)
    {id : NodeId} (hid : id < g.outline.size) :
    ((g.outline.subject g.rules).equation a id).Meets (part.terms a id) fun v =>
      part ⟨.standard a, id⟩ → v = g.outline.reference g.rules a id :=
  part.meets_terms (Outline.equation_meets hs _ a hid) fun hc _ hd =>
    part.closed (c := ⟨.standard a, id⟩) hd hc

variable {g : Scene} {w : World Attribute.schema} {c d : CellKey}

/-- The resolver has failed, although the cell has a value. -/
def CutOff (g : Scene) (w : World Attribute.schema) (c : CellKey) : Prop :=
  w.stage c = some .fail ∧ ¬g.Lost c

/-- The cell relies on one that has been cut off. -/
def Spoiled (g : Scene) (w : World Attribute.schema) (c : CellKey) : Prop :=
  ∃ d, g.Relies c d ∧ g.CutOff w d

def Part.spared (part : g.Part) (w : World Attribute.schema) : g.Part where
  holds c := part c ∧ ¬g.Spoiled w c
  closed hread hc := ⟨part.closed hread hc.1, fun ⟨d, hrelies, hcut⟩ =>
    hc.2 ⟨d, .head hread hrelies, hcut⟩⟩

theorem lost_of_spared {part : g.Part} (h : part.spared w c) (hs : w.stage c = some .fail) :
    g.Lost c := by
  by_contra hlost
  exact h.2 ⟨c, .refl, hs, hlost⟩

end Scene

end Attribution
