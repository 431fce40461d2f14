import Attribution.Attribute.Escape
import Attribution.Attribute.Equation
/-!
# What equations ask for

`Equation.Meets T post` says of an equation that it reads only what the terms
`T` allow, that it fails only where they allow it, that it never stops or finds
a child missing, and that its value satisfies `post`, whatever its reads are
answered with as long as `T` admits the answers. It is closed under the ways
equations are put together.
-/

namespace Attribution

open Engine

/-- What an equation may do, and what its reads may be answered with. -/
structure Terms where
  asks : Attribute → NodeId → Prop
  answers : (a : Attribute) → NodeId → Probe a.Value → Prop
  fails : Prop

namespace Equation

variable {α β : Type} {T : Terms}

def Meets (T : Terms) : Equation α → (α → Prop) → Prop
  | .done a, post => post a
  | .probe a id next, post => T.asks a id ∧ ∀ p, T.answers a id p → (next p).Meets T post
  | .fail _ next, post => T.fails ∧ next.Meets T post
  | .report _ next, post => next.Meets T post
  | .stop _, _ => False
  | .malformed, _ => False

theorem Meets.mono {x : Equation α} {post post' : α → Prop} (h : x.Meets T post)
    (hp : ∀ a, post a → post' a) : x.Meets T post' := by
  induction x with
  | done a => exact hp a h
  | probe a id next ih => exact ⟨h.1, fun p hp' => ih p (h.2 p hp')⟩
  | fail d next ih => exact ⟨h.1, ih h.2⟩
  | report d next ih => exact ih h
  | stop e => exact h
  | malformed => exact h

theorem Meets.bind {x : Equation α} {f : α → Equation β} {post : β → Prop}
    (h : x.Meets T fun a => (f a).Meets T post) : (x >>= f).Meets T post := by
  change (x.bind f).Meets T post
  induction x with
  | done a => exact h
  | probe a id next ih => exact ⟨h.1, fun p hp => ih p (h.2 p hp)⟩
  | fail d next ih => exact ⟨h.1, ih h.2⟩
  | report d next ih => exact ih h
  | stop e => exact h
  | malformed => exact h

theorem meets_pure {a : α} {post : α → Prop} (h : post a) : (pure a : Equation α).Meets T post :=
  h

theorem meets_read {a : Attribute} {id : NodeId} {post : a.Value → Prop} (hask : T.asks a id)
    (h : ∀ p, T.answers a id p → post p.value) : (read a id).Meets T post :=
  ⟨hask, h⟩

theorem meets_failWith {d : Diagnostic} {post : Unit → Prop} (hfail : T.fails) (h : post ()) :
    (failWith d).Meets T post :=
  ⟨hfail, h⟩

end Equation

namespace Subject

variable {T : Terms} {s : Subject}

theorem meets_node {id : NodeId} {n : Node} {post : Node → Prop} (hn : s.tree.node? id = some n)
    (h : post n) : (s.node id).Meets T post := by
  rw [node, hn]
  exact h

end Subject

theorem Node.meets_child {T : Terms} {n : Node} {i : Nat} {id : NodeId} {post : NodeId → Prop}
    (hi : n.children[i]? = some id) (h : post id) : (n.child i).Meets T post := by
  rw [child, hi]
  exact h

end Attribution
