import Attribution.Attribute.Slot
import Attribution.Proofs.Reference.Flow
/-!
# Where equations read

`Equation.Confined P post` says of an equation that it reads only what `P` allows,
whatever its reads are answered with, and that its value, if it comes to one, satisfies
`post`. The equation of an attribute reads from the node itself, from its children, and
for reachability from its parent and from the child to its left; constants are also read
from declarations.
-/

namespace Attribution

open Engine

namespace Equation

variable {α β : Type} {P P' : Attribute → NodeId → Prop}

def Confined (P : Attribute → NodeId → Prop) : Equation α → (α → Prop) → Prop
  | .done a, post => post a
  | .probe a id next, post => P a id ∧ ∀ p, (next p).Confined P post
  | .fail _ next, post | .report _ next, post => next.Confined P post
  | .stop _, _ | .malformed, _ => True

def first? : Equation α → Option CellKey
  | .probe a id _ => some ⟨.standard a, id⟩
  | .fail _ next | .report _ next => next.first?
  | .done _ | .stop _ | .malformed => none

theorem Confined.mono {x : Equation α} {post post' : α → Prop} (h : x.Confined P post)
    (hP : ∀ a id, P a id → P' a id) (hpost : ∀ v, post v → post' v) : x.Confined P' post' := by
  induction x with
  | done v => exact hpost v h
  | probe a id next ih => exact ⟨hP a id h.1, fun p => ih p (h.2 p)⟩
  | fail d next ih => exact ih h
  | report d next ih => exact ih h
  | stop e => trivial
  | malformed => trivial

theorem Confined.bind {x : Equation α} {f : α → Equation β} {post : β → Prop}
    (h : x.Confined P fun a => (f a).Confined P post) : (x >>= f).Confined P post := by
  change (x.bind f).Confined P post
  induction x with
  | done v => exact h
  | probe a id next ih => exact ⟨h.1, fun p => ih p (h.2 p)⟩
  | fail d next ih => exact ih h
  | report d next ih => exact ih h
  | stop e => trivial
  | malformed => trivial

theorem confined_read {a : Attribute} {id : NodeId} {post : a.Value → Prop} (hP : P a id)
    (h : ∀ v, post v) : (read a id).Confined P post :=
  ⟨hP, fun p => h p.value⟩

end Equation

open Equation

theorem Node.confined_child {P : Attribute → NodeId → Prop} {n : Node} {i : Nat}
    {post : NodeId → Prop} (h : ∀ m, n.children[i]? = some m → post m) :
    (n.child i).Confined P post := by
  unfold child
  split
  · exact h _ ‹_›
  · trivial

/-- The attribute tells how control leaves a node. -/
def Attribute.IsExit (a : Attribute) : Prop :=
  a = .completes ∨ a = .breaks ∨ a = .continues

namespace Subject

variable {s : Subject} {P : Attribute → NodeId → Prop} {id : NodeId} {n : Node}

theorem confined_node {post : Node → Prop} (h : ∀ n, s.tree.node? id = some n → post n) :
    (s.node id).Confined P post := by
  unfold node
  split
  · exact h _ ‹_›
  · trivial

theorem confined_node_eq {post : Node → Prop} (hn : s.tree.node? id = some n) (h : post n) :
    (s.node id).Confined P post :=
  confined_node fun m hm => by rwa [← Option.some.inj (hn.symm.trans hm)]

/-! ## Try statements -/

theorem confined_tryClauses (ids : List NodeId) :
    (s.tryClauses ids).Confined P fun clauses =>
      (∀ c ∈ clauses.1, c.1 ∈ ids) ∧ ∀ f ∈ clauses.2, f ∈ ids := by
  induction ids with
  | nil => exact ⟨nofun, nofun⟩
  | cons id rest ih =>
    refine .bind (confined_node fun n _ => .bind (ih.mono (fun _ _ h => h) ?_))
    rintro ⟨catches, finalizer⟩ ⟨hcatches, hfinalizer⟩
    have hrest : ∀ c ∈ catches, c.1 ∈ id :: rest := fun c hc =>
      List.mem_cons_of_mem id (hcatches c hc)
    dsimp only
    split
    · refine ⟨fun c hc => ?_, fun f hf => List.mem_cons_of_mem id (hfinalizer f hf)⟩
      rcases List.mem_cons.1 hc with rfl | hc
      · exact List.mem_cons_self
      · exact hrest c hc
    · refine ⟨hrest, fun f hf => ?_⟩
      cases finalizer with
      | none =>
        cases hf
        exact List.mem_cons_self
      | some g => exact List.mem_cons_of_mem id (hfinalizer f hf)
    · exact ⟨hrest, fun f hf => List.mem_cons_of_mem id (hfinalizer f hf)⟩

theorem confined_tryShape {post : TryShape → Prop} (hn : s.tree.node? id = some n)
    (h : ∀ parts : TryShape, parts.body ∈ n.children → (∀ c ∈ parts.catches, c.1 ∈ n.children) →
      (∀ f ∈ parts.finalizer, f ∈ n.children) → post parts) :
    (s.tryShape id).Confined P post := by
  refine .bind (confined_node_eq hn ?_)
  cases hchildren : n.children with
  | nil => trivial
  | cons body rest =>
    rw [hchildren] at h
    refine .bind ((confined_tryClauses rest).mono (fun _ _ h => h) ?_)
    rintro ⟨catches, finalizer⟩ ⟨hcatches, hfinalizer⟩
    exact h _ List.mem_cons_self (fun c hc => List.mem_cons_of_mem body (hcatches c hc))
      fun f hf => List.mem_cons_of_mem body (hfinalizer f hf)

/-! ## Reachability -/

theorem confined_reachable (hn : s.tree.node? id = some n)
    (hparent : ∀ p, n.parent = some p → P .reachable p)
    (hbefore : ∀ p above m, n.parent = some p → s.tree.node? p = some above →
      above.kind.isSequence = true → 0 < n.index → above.children[n.index - 1]? = some m →
      P .completes m)
    (hguard : ∀ p above m, n.parent = some p → s.tree.node? p = some above →
      above.kind = .whileLoop → n.index = 1 → above.children[0]? = some m → P .constant m) :
    (s.reachable id).Confined P fun _ => True := by
  unfold reachable
  rw [Tree.parent?, hn, Option.bind_some]
  cases hp : n.parent with
  | none => trivial
  | some p =>
    refine .bind (confined_node_eq hn (.bind (confined_node fun above habove => ?_)))
    split
    · rename_i hseq
      rw [Bool.and_eq_true, decide_eq_true_eq] at hseq
      exact .bind (Node.confined_child fun m hm =>
        confined_read (hbefore p above m hp habove hseq.1 hseq.2 hm) fun _ => trivial)
    · split
      · rename_i hloop
        rw [Bool.and_eq_true, decide_eq_true_eq, decide_eq_true_eq] at hloop
        refine .bind (confined_read (hparent p hp) fun live => ?_)
        split
        · refine .bind (Node.confined_child fun m hm => ?_)
          exact .bind (confined_read (hguard p above m hp habove hloop.1 hloop.2 hm) fun _ => trivial)
        · trivial
      · exact confined_read (hparent p hp) fun _ => trivial

theorem confined_unreachable (hn : s.tree.node? id = some n) (hown : P .reachable id)
    (hparent : ∀ p, n.parent = some p → P .reachable p)
    (hbefore : ∀ p above m, n.parent = some p → s.tree.node? p = some above → 0 < n.index →
      above.children[n.index - 1]? = some m → P .reachable m) :
    (s.unreachable id).Confined P fun _ => True := by
  have hbegins : (s.beginsDeadCode id).Confined P fun _ => True := by
    unfold beginsDeadCode
    rw [Tree.parent?, hn, Option.bind_some]
    cases hp : n.parent with
    | none => trivial
    | some p =>
      refine .bind (confined_node_eq hn ?_)
      split
      · trivial
      · trivial
      · trivial
      · refine .bind (confined_read hown fun live => ?_)
        split
        · trivial
        · refine .bind (confined_read (hparent p hp) fun around => ?_)
          split
          · trivial
          · refine .bind (confined_node fun above habove => ?_)
            split
            · rename_i hseq
              rw [Bool.and_eq_true, decide_eq_true_eq] at hseq
              exact .bind (Node.confined_child fun m hm =>
                confined_read (hbefore p above m hp habove hseq.2 hm) fun _ => trivial)
            · trivial
  refine .bind (hbegins.mono (fun _ _ h => h) fun begins _ => ?_)
  split
  · exact .bind (confined_node_eq hn trivial)
  · trivial

/-- Whether dead code begins at a statement is a question only if control does not come to
it. -/
theorem first?_unreachable {p : NodeId} (hn : s.tree.node? id = some n) (hp : n.parent = some p)
    (hclause : n.kind.isClause = false) :
    (s.unreachable id).first? = some ⟨.standard .reachable, id⟩ := by
  unfold unreachable beginsDeadCode node
  rw [Tree.parent?, hn, Option.bind_some, hp]
  change Equation.first? (Equation.bind (Equation.bind _ _) _) = _
  cases hk : n.kind with
  | case | catchClause | finallyClause =>
    rw [hk] at hclause
    cases hclause
  | _ => rw [Equation.bind, hk]; rfl

/-! ## Completion and jumps -/

section Exit

variable (hn : s.tree.node? id = some n) (hown : P .reachable id)
  (hkids : ∀ m ∈ n.children, (∀ a, a.IsExit → P a m) ∧ P .constant m)

include hkids

theorem confined_exit {a : Attribute} {m : NodeId} {post : a.Value → Prop} (hm : m ∈ n.children)
    (ha : a.IsExit) (h : ∀ v, post v) : (Equation.read a m).Confined P post :=
  confined_read ((hkids m hm).1 a ha) h

theorem confined_breaksFree {m : NodeId} (hm : m ∈ n.children) :
    (breaksFree m).Confined P fun _ => True :=
  .bind (confined_exit hkids hm (.inr (.inl rfl)) fun _ => trivial)

theorem confined_anyBreaks (ids : List NodeId) (hids : ∀ m ∈ ids, m ∈ n.children) :
    (anyBreaks ids).Confined P fun _ => True := by
  induction ids with
  | nil => trivial
  | cons m rest ih =>
    refine .bind ((confined_breaksFree hkids (hids m List.mem_cons_self)).mono (fun _ _ h => h)
      fun free _ => ?_)
    split
    · trivial
    · exact ih fun k hk => hids k (List.mem_cons_of_mem m hk)

theorem confined_anyCompletes (catches : List (NodeId × ExcType))
    (hcatches : ∀ c ∈ catches, c.1 ∈ n.children) (normal : Bool) {post : Bool → Prop}
    (h : ∀ v, post v) : (anyCompletes normal catches).Confined P post := by
  induction catches generalizing normal with
  | nil => exact h normal
  | cons c rest ih =>
    refine .bind (confined_exit hkids (hcatches c List.mem_cons_self) (.inl rfl) fun v => ?_)
    exact ih (fun d hd => hcatches d (List.mem_cons_of_mem c hd)) _

theorem confined_completesDoWhile : (s.completesDoWhile id n).Confined P fun _ => True := by
  refine .bind (Node.confined_child fun body hbody => ?_)
  refine .bind (Node.confined_child fun cond hcond => ?_)
  have hbody := List.mem_of_getElem? hbody
  refine .bind (confined_exit hkids hbody (.inr (.inr rfl)) fun continues => .bind ?_)
  have hlabel : (s.labelAround id).Confined P fun _ => True := by
    unfold labelAround
    split
    · trivial
    · refine .bind (confined_node fun above _ => ?_)
      split
      · trivial
      · trivial
  refine hlabel.mono (fun _ _ h => h) fun label _ => ?_
  -- What remains once it is known whether the guard is tested.
  have hrest : ∀ tested : Bool, Confined P (if tested = true then do
      if (← Equation.read .constant cond) != some (.bool true) then return true
      breaksFree body
    else breaksFree body) fun _ => True := by
    intro tested
    split
    · refine .bind (confined_read (hkids cond (List.mem_of_getElem? hcond)).2 fun constant => ?_)
      split
      · trivial
      · exact confined_breaksFree hkids hbody
    · exact confined_breaksFree hkids hbody
  refine .bind (confined_exit hkids hbody (.inl rfl) fun completes => ?_)
  split
  · exact hrest true
  · exact hrest _

include hown

theorem confined_completesSwitch : (s.completesSwitch id n).Confined P fun _ => True := by
  unfold completesSwitch
  split
  · trivial
  · rename_i selector cases hchildren
    have hcases : ∀ m ∈ cases, m ∈ n.children := fun m hm => by
      rw [hchildren]
      exact List.mem_cons_of_mem selector hm
    dsimp only
    split
    · exact confined_read hown fun _ => trivial
    · rename_i last hlast
      have hmem := hcases last (List.mem_of_getLast? (Option.filter_eq_some_iff.1 hlast).1)
      refine .bind (confined_exit hkids hmem (.inl rfl) fun completes => ?_)
      split
      · trivial
      · exact confined_anyBreaks hkids cases hcases

include hn

omit hown in
theorem confined_completesTry : (s.completesTry id).Confined P fun _ => True := by
  refine .bind (confined_tryShape hn fun parts hbody hcatches hfinalizer => ?_)
  refine .bind (confined_exit hkids hbody (.inl rfl) fun body => ?_)
  refine .bind (confined_anyCompletes hkids _ hcatches _ fun normal => ?_)
  split
  · rename_i finalizer hlast
    split
    · exact confined_exit hkids (hfinalizer finalizer hlast) (.inl rfl) fun _ => trivial
    · trivial
  · trivial

theorem confined_completes : (s.completes id).Confined P fun _ => True := by
  have hself : (Equation.read .reachable id).Confined P fun _ => True :=
    confined_read hown fun _ => trivial
  have hkid {m : NodeId} (hm : m ∈ n.children) :
      (Equation.read .completes m).Confined P fun _ => True :=
    confined_exit hkids hm (.inl rfl) fun _ => trivial
  have hchild {i : Nat} : (n.child i).Confined P fun m => m ∈ n.children :=
    Node.confined_child fun m hm => List.mem_of_getElem? hm
  refine .bind (confined_node_eq hn ?_)
  split
  · trivial
  · trivial
  · trivial
  · trivial
  iterate 4
    · split
      · exact hkid (List.mem_of_getLast? ‹_›)
      · exact hself
  · split
    · rename_i no hno
      refine .bind (hchild.mono (fun _ _ h => h) fun yes hyes => ?_)
      refine .bind (confined_exit hkids hyes (.inl rfl) fun completes => ?_)
      split
      · trivial
      · exact hkid (List.mem_of_getElem? hno)
    · exact hself
  · refine .bind (confined_read hown fun live => ?_)
    split
    · trivial
    · refine .bind (hchild.mono (fun _ _ h => h) fun cond hcond => ?_)
      refine .bind (confined_read (hkids cond hcond).2 fun constant => ?_)
      split
      · trivial
      · exact .bind (hchild.mono (fun _ _ h => h) fun body hbody =>
          confined_breaksFree hkids hbody)
  · exact confined_completesDoWhile hkids
  · refine .bind (hchild.mono (fun _ _ h => h) fun body hbody => ?_)
    refine .bind (confined_exit hkids hbody (.inl rfl) fun completes => ?_)
    split
    · trivial
    · exact .bind (confined_exit hkids hbody (.inr (.inl rfl)) fun _ => trivial)
  · exact confined_completesSwitch hown hkids
  · exact confined_completesTry hn hkids
  · exact hself

omit hn hown in
theorem confined_escaping (j : Jump) {m : NodeId} {post : LabelSet → Prop} (hm : m ∈ n.children)
    (h : ∀ v, post v) : (j.escaping m).Confined P post := by
  cases j with
  | «break» => exact confined_exit hkids hm (.inr (.inl rfl)) h
  | «continue» => exact confined_exit hkids hm (.inr (.inr rfl)) h

omit hn hown in
theorem confined_escapingAny (j : Jump) (ids : List NodeId) (hids : ∀ m ∈ ids, m ∈ n.children)
    (found : LabelSet) {post : LabelSet → Prop} (h : ∀ v, post v) :
    (escapingAny j found ids).Confined P post := by
  induction ids generalizing found with
  | nil => exact h found
  | cons m rest ih =>
    refine .bind (confined_escaping hkids j (hids m List.mem_cons_self) fun more => ?_)
    exact ih (fun k hk => hids k (List.mem_cons_of_mem m hk)) _

omit hown in
theorem confined_absorb (j : Jump) (labels : LabelSet) :
    (s.absorb j id n labels).Confined P fun _ => True := by
  unfold absorb
  split
  · trivial
  · trivial
  · split
    · trivial
    · trivial
  · trivial
  · refine .bind (confined_tryShape hn fun parts _ _ hfinalizer => ?_)
    split
    · rename_i finalizer hlast
      have hmem := hfinalizer finalizer hlast
      refine .bind (confined_exit hkids hmem (.inl rfl) fun completes => ?_)
      split
      · trivial
      · exact confined_escaping hkids j hmem fun _ => trivial
    · trivial
  · trivial

omit hn hkids in
theorem confined_jumpLabels (label : Option String) :
    (s.jumpLabels id n label).Confined P fun _ => True := by
  unfold jumpLabels
  split
  · trivial
  · refine .bind (confined_read hown fun live => ?_)
    split
    · trivial
    · trivial
  · trivial

theorem confined_escapes (j : Jump) : (s.escapes j id).Confined P fun _ => True := by
  refine .bind (confined_node_eq hn ?_)
  split
  · exact confined_jumpLabels hown _
  · exact confined_jumpLabels hown _
  · trivial
  · trivial
  · refine .bind (confined_escapingAny hkids _ _ (fun m hm => (List.mem_filter.1 hm).1) _
      fun labels => ?_)
    exact confined_absorb hn hkids _ labels

end Exit

/-! ## Exceptions and constants -/

theorem confined_raised : (s.raised id).Confined P fun _ => True := by
  unfold raised
  split
  · trivial
  · exact .bind (confined_node fun _ _ => trivial)

theorem confined_propagatedAny (ids : List NodeId) (hids : ∀ m ∈ ids, P .propagated m)
    (found : TypeSet) {post : TypeSet → Prop} (h : ∀ v, post v) :
    (propagatedAny found ids).Confined P post := by
  induction ids generalizing found with
  | nil => exact h found
  | cons m rest ih =>
    refine .bind (confined_read (hids m List.mem_cons_self) fun more => ?_)
    exact ih (fun k hk => hids k (List.mem_cons_of_mem m hk)) _

theorem confined_propagated (hn : s.tree.node? id = some n) (hown : P .reachable id)
    (hraised : P .raised id)
    (hkids : ∀ m ∈ n.children, P .propagated m ∧ P .completes m) :
    (s.propagated id).Confined P fun _ => True := by
  have hleaving : (s.leavingTry id).Confined P fun _ => True := by
    refine .bind (confined_tryShape hn fun parts hbody hcatches hfinalizer => ?_)
    refine .bind (confined_read (hkids _ hbody).1 fun thrown => ?_)
    refine .bind (confined_propagatedAny _ (fun m hm => ?_) _ fun leaving => ?_)
    · obtain ⟨c, hc, rfl⟩ := List.mem_map.1 hm
      exact (hkids _ (hcatches c hc)).1
    · split
      · trivial
      · rename_i finalizer hlast
        obtain ⟨hpropagated, hcompletes⟩ := hkids _ (hfinalizer finalizer hlast)
        refine .bind (confined_read hpropagated fun last => ?_)
        refine .bind (confined_read hcompletes fun completes => ?_)
        split
        · trivial
        · trivial
  refine .bind (confined_read hown fun live => ?_)
  split
  · trivial
  · refine .bind (confined_read hraised fun own => .bind (confined_node_eq hn ?_))
    split
    · exact .bind (hleaving.mono (fun _ _ h => h) fun _ _ => trivial)
    · exact confined_propagatedAny _ (fun m hm => (hkids m hm).1) _ fun _ => trivial

theorem confined_valueOf {dep : NodeId} {post : Option Const → Prop} (hP : P .constant dep)
    (h : ∀ v, post v) : (s.valueOf id n dep).Confined P post := by
  refine ⟨hP, fun p => ?_⟩
  cases p with
  | ready v => exact h v
  | failed v => exact h v
  | cyclic v => exact h none

theorem confined_constant (hn : s.tree.node? id = some n)
    (hkids : ∀ m ∈ n.children, P .constant m)
    (hbinding : ∀ m, s.tree.binding? id = some m → P .constant m) :
    (s.constant id).Confined P fun _ => True := by
  have hchild {i : Nat} : (n.child i).Confined P fun m => P .constant m :=
    Node.confined_child fun m hm => hkids m (List.mem_of_getElem? hm)
  refine .bind (confined_node_eq hn ?_)
  split
  · trivial
  · trivial
  · split
    · exact confined_valueOf (hkids _ (List.mem_of_head? ‹_›)) fun _ => trivial
    · trivial
  · split
    · exact confined_valueOf (hbinding _ ‹_›) fun _ => trivial
    · trivial
  · exact .bind (hchild.mono (fun _ _ h => h) fun dep hdep =>
      .bind (confined_valueOf hdep fun _ => trivial))
  · refine .bind (hchild.mono (fun _ _ h => h) fun dep hdep => ?_)
    refine .bind (confined_valueOf hdep fun left => ?_)
    refine .bind (hchild.mono (fun _ _ h => h) fun dep hdep => ?_)
    refine .bind (confined_valueOf hdep fun right => ?_)
    split
    · trivial
    · trivial
  · trivial

end Subject

end Attribution
