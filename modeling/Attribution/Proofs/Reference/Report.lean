import Attribution.Proofs.Reference.Solution
import Mathlib.Data.Multiset.AddSub
/-!
# What equations report

The equation of an attribute reports what is wrong with its node (`dues`): invalid
jumps and broken rules as failures, unreachable statements on the side. Which
constants are circular depends on who asks first, so the equations of constants are
left out here. `Tells` is about what an equation reports and reads when its reads are
answered with reference values; most equations are silent.
-/

namespace Attribution

open Engine

/-! ## Silent equations -/

namespace Equation

variable {α β : Type}

/-- The equation reports nothing, and asks for no attribute that is asked for with
care. -/
def Silent : Equation α → Prop
  | .done _ | .stop _ | .malformed => True
  | .probe a _ next => (a ≠ .unreachable ∧ a ≠ .raised) ∧ ∀ p, (next p).Silent
  | .fail _ _ | .report _ _ => False

theorem Silent.bind {x : Equation α} {f : α → Equation β} (hx : x.Silent)
    (hf : ∀ a, (f a).Silent) : (x >>= f).Silent := by
  change (x.bind f).Silent
  induction x with
  | done a => exact hf a
  | probe a id next ih => exact ⟨hx.1, fun p => ih p (hx.2 p)⟩
  | fail d next => exact hx.elim
  | report d next => exact hx.elim
  | stop e => trivial
  | malformed => trivial

theorem silent_pure (a : α) : (pure a : Equation α).Silent :=
  trivial

theorem silent_read {a : Attribute} {id : NodeId} (ha : a ≠ .unreachable ∧ a ≠ .raised) :
    (read a id).Silent :=
  ⟨ha, fun _ => trivial⟩

end Equation

theorem Node.silent_child (n : Node) (i : Nat) : (n.child i).Silent := by
  unfold child
  split
  · trivial
  · trivial

namespace Subject

open Equation

variable (s : Subject)

theorem silent_node (id : NodeId) : (s.node id).Silent := by
  unfold node
  split
  · trivial
  · trivial

theorem silent_tryClauses (ids : List NodeId) : (s.tryClauses ids).Silent := by
  induction ids with
  | nil => trivial
  | cons id rest ih =>
    refine .bind (s.silent_node id) fun n => .bind ih fun ⟨catches, finalizer⟩ => ?_
    dsimp only
    split
    · trivial
    · trivial
    · trivial

theorem silent_tryShape (id : NodeId) : (s.tryShape id).Silent := by
  refine .bind (s.silent_node id) fun n => ?_
  split
  · trivial
  · exact .bind (s.silent_tryClauses _) fun _ => trivial

theorem silent_reachable (id : NodeId) : (s.reachable id).Silent := by
  unfold reachable
  split
  · trivial
  · refine .bind (s.silent_node _) fun n => .bind (s.silent_node _) fun parent => ?_
    split
    · exact .bind (parent.silent_child _) fun _ => silent_read (by decide)
    · split
      · refine .bind (silent_read (by decide)) fun live => ?_
        split
        · refine .bind (parent.silent_child _) fun cond => ?_
          exact .bind (silent_read (by decide)) fun _ => trivial
        · trivial
      · exact silent_read (by decide)

theorem silent_beginsDeadCode (id : NodeId) : (s.beginsDeadCode id).Silent := by
  unfold beginsDeadCode
  split
  · trivial
  · refine .bind (s.silent_node _) fun n => ?_
    split
    · trivial
    · trivial
    · trivial
    · refine .bind (silent_read (by decide)) fun live => ?_
      split
      · trivial
      · refine .bind (silent_read (by decide)) fun around => ?_
        split
        · trivial
        · refine .bind (s.silent_node _) fun parent => ?_
          split
          · exact .bind (parent.silent_child _) fun _ => silent_read (by decide)
          · trivial

theorem silent_breaksFree (id : NodeId) : (breaksFree id).Silent :=
  .bind (silent_read (by decide)) fun _ => trivial

theorem silent_anyBreaks (ids : List NodeId) : (anyBreaks ids).Silent := by
  induction ids with
  | nil => trivial
  | cons id rest ih =>
    refine .bind (silent_breaksFree id) fun free => ?_
    split
    · trivial
    · exact ih

theorem silent_anyCompletes (catches : List (NodeId × ExcType)) (normal : Bool) :
    (anyCompletes normal catches).Silent := by
  induction catches generalizing normal with
  | nil => trivial
  | cons c rest ih => exact .bind (silent_read (by decide)) fun _ => ih _

theorem silent_labelAround (id : NodeId) : (s.labelAround id).Silent := by
  unfold labelAround
  split
  · trivial
  · refine .bind (s.silent_node _) fun n => ?_
    split
    · trivial
    · trivial

theorem silent_completesDoWhile (id : NodeId) (n : Node) : (s.completesDoWhile id n).Silent := by
  refine .bind (n.silent_child _) fun body => .bind (n.silent_child _) fun cond => ?_
  refine .bind (silent_read (by decide)) fun continues => .bind (s.silent_labelAround id) fun _ => ?_
  -- What is left once it is known whether the guard is tested.
  have hrest : ∀ tested : Bool, Silent (if tested = true then do
      if (← Equation.read .constant cond) != some (.bool true) then return true
      breaksFree body
    else breaksFree body) := by
    intro tested
    split
    · refine .bind (silent_read (by decide)) fun constant => ?_
      split
      · trivial
      · exact silent_breaksFree body
    · exact silent_breaksFree body
  refine .bind (silent_read (by decide)) fun completes => ?_
  split
  · exact .bind (silent_pure true) hrest
  · exact .bind (silent_pure _) hrest

theorem silent_completesSwitch (id : NodeId) (n : Node) : (s.completesSwitch id n).Silent := by
  unfold completesSwitch
  split
  · trivial
  · dsimp only
    split
    · exact silent_read (by decide)
    · refine .bind (silent_read (by decide)) fun completes => ?_
      split
      · trivial
      · exact silent_anyBreaks _

theorem silent_completesTry (id : NodeId) : (s.completesTry id).Silent := by
  refine .bind (s.silent_tryShape id) fun parts => .bind (silent_read (by decide)) fun completes => ?_
  refine .bind (silent_anyCompletes _ _) fun normal => ?_
  split
  · split
    · exact silent_read (by decide)
    · trivial
  · trivial

theorem silent_completes (id : NodeId) : (s.completes id).Silent := by
  refine .bind (s.silent_node id) fun n => ?_
  cases hk : n.kind with
  | breakTo label | continueTo label | returns | throws type => trivial
  | block | case isDefault | catchClause type | finallyClause =>
    dsimp only
    split
    · exact silent_read (by decide)
    · exact silent_read (by decide)
  | ifThen =>
    dsimp only
    split
    · refine .bind (n.silent_child 1) fun yes => .bind (silent_read (by decide)) fun completes => ?_
      split
      · trivial
      · exact silent_read (by decide)
    · exact silent_read (by decide)
  | whileLoop =>
    refine .bind (silent_read (by decide)) fun live => ?_
    split
    · trivial
    · refine .bind (n.silent_child 0) fun cond => .bind (silent_read (by decide)) fun constant => ?_
      split
      · trivial
      · exact .bind (n.silent_child 1) fun body => silent_breaksFree body
  | doWhile => exact s.silent_completesDoWhile id n
  | labeled label =>
    refine .bind (n.silent_child 0) fun body => .bind (silent_read (by decide)) fun completes => ?_
    split
    · trivial
    · exact .bind (silent_read (by decide)) fun _ => trivial
  | switch => exact s.silent_completesSwitch id n
  | tryCatch => exact s.silent_completesTry id
  | exprStmt | constDecl name | bool value | int value | name name | unary op | binary op
  | call callee => exact silent_read (by decide)

theorem silent_escaping (j : Jump) (id : NodeId) : (j.escaping id).Silent := by
  cases j with
  | «break» => exact silent_read (by decide)
  | «continue» => exact silent_read (by decide)

theorem silent_escapingAny (j : Jump) (ids : List NodeId) (found : LabelSet) :
    (escapingAny j found ids).Silent := by
  induction ids generalizing found with
  | nil => trivial
  | cons id rest ih => exact .bind (silent_escaping j id) fun _ => ih _

theorem silent_absorb (j : Jump) (id : NodeId) (n : Node) (labels : LabelSet) :
    (s.absorb j id n labels).Silent := by
  unfold absorb
  split
  · trivial
  · trivial
  · split
    · trivial
    · trivial
  · trivial
  · refine .bind (s.silent_tryShape id) fun parts => ?_
    split
    · refine .bind (silent_read (by decide)) fun completes => ?_
      split
      · trivial
      · exact silent_escaping j _
    · trivial
  · trivial

end Subject

/-! ## What is due -/

def Tree.predecessor? (t : Tree) (id : NodeId) : Option NodeId :=
  match t.node? id, (t.parent? id).bind t.node? with
  | some n, some parent =>
    if parent.kind.isSequence && 0 < n.index then parent.children[n.index - 1]? else none
  | _, _ => none

/-- Control does not come to the node, but to what is around it and to its predecessor. -/
def Tree.beginsDeadCode (t : Tree) (live : NodeId → Bool) (id : NodeId) : Bool :=
  match t.node? id, t.parent? id with
  | some n, some above =>
    !n.kind.isClause && !live id && live above && (t.predecessor? id).all live
  | _, _ => false

namespace Subject

variable (s : Subject)

def deadCode (live : NodeId → Bool) (id : NodeId) : Multiset Diagnostic :=
  match s.tree.node? id with
  | some n => if s.tree.beginsDeadCode live id then
      {⟨.unreachableStatement, "unreachable statement", n.location⟩} else 0
  | none => 0

def invalidJump (id : NodeId) : Multiset Diagnostic :=
  match s.tree.node? id, s.tree.jump? id with
  | some n, some (.error e) => {⟨.invalidJump, e.message, n.location⟩}
  | _, _ => 0

def violation (id : NodeId) : Multiset Diagnostic :=
  match s.tree.node? id, s.rules.raised s.tree id with
  | some n, .error v => {⟨.ruleViolation, v.message, n.location⟩}
  | _, _ => 0

/-- What the equation of an attribute reports of a node, circular constants apart. -/
def dues (live : NodeId → Bool) : Attribute → NodeId → Multiset Diagnostic
  | .unreachable, id => s.deadCode live id
  | .breaks, id =>
    match (s.tree.node? id).map Node.kind with
    | some (.breakTo _) => s.invalidJump id
    | _ => 0
  | .continues, id =>
    match (s.tree.node? id).map Node.kind with
    | some (.continueTo _) => s.invalidJump id
    | _ => 0
  | .raised, id => s.violation id
  | _, _ => 0

end Subject

namespace Outline

variable (o : Outline) (r : RuleProvider)

def live (id : NodeId) : Bool :=
  o.reference r .reachable id

/-- What a node raises is of interest where control comes to it, and only statements
are looked at as unreachable code. -/
def Wanted : Attribute → NodeId → Prop
  | .raised, id => o.live r id = true
  | .unreachable, id => (Tree.ofOutline o).isStatement id = true
  | _, _ => True

/-- What has to be known of a reachable node, and of its children, to know the
exceptions that leave it. -/
def needs : Attribute → NodeId → List CellKey
  | .propagated, id =>
    match o.live r id, (Tree.ofOutline o).node? id with
    | true, some n => ⟨.standard .raised, id⟩ :: n.children.map fun m => ⟨.standard .propagated, m⟩
    | _, _ => []
  | _, _ => []

/-- `post` holds of the value, the reports and the reads of an equation that asks for
nothing unwanted, whenever its reads are answered with reference values. -/
def Tells {α : Type} : Equation α → (α → Multiset Diagnostic → List CellKey → Prop) → Prop
  | .done v, post => post v 0 []
  | .probe a id next, post => o.Wanted r a id ∧ ∀ p, o.Exact r a id p →
    Tells (next p) fun v ds seen => post v ds (⟨.standard a, id⟩ :: seen)
  | .fail _ _, _ => False
  | .report d next, post => d.kind ≠ .cyclicDefinition ∧
    Tells next fun v ds seen => post v (d ::ₘ ds) seen
  | .stop _, _ => True
  | .malformed, _ => True

variable {o r} {α β : Type} {x : Site × Outline} {id : NodeId}

theorem Tells.mono {e : Equation α} {post post' : α → Multiset Diagnostic → List CellKey → Prop}
    (h : o.Tells r e post) (hp : ∀ v ds seen, post v ds seen → post' v ds seen) :
    o.Tells r e post' := by
  induction e generalizing post post' with
  | done v => exact hp v 0 [] h
  | probe a id next ih => exact ⟨h.1, fun p he => ih p (h.2 p he) fun _ _ _ => hp _ _ _⟩
  | fail d next => exact h.elim
  | report d next ih => exact ⟨h.1, ih h.2 fun _ _ _ => hp _ _ _⟩
  | stop e => trivial
  | malformed => trivial

theorem Tells.bind {e : Equation α} {f : α → Equation β}
    {post : β → Multiset Diagnostic → List CellKey → Prop}
    (h : o.Tells r e fun a ds seen =>
      o.Tells r (f a) fun b ds' seen' => post b (ds + ds') (seen ++ seen')) :
    o.Tells r (e >>= f) post := by
  change o.Tells r (e.bind f) post
  induction e generalizing post with
  | done v =>
    have hf : o.Tells r (f v) fun b ds seen => post b (0 + ds) ([] ++ seen) := h
    refine hf.mono fun _ _ _ hpost => ?_
    rwa [Multiset.zero_add] at hpost
  | probe a id next ih => exact ⟨h.1, fun p he => ih p (h.2 p he)⟩
  | fail d next => exact h.elim
  | report d next ih =>
    refine ⟨h.1, ih (h.2.mono fun _ _ _ hf => hf.mono fun _ _ _ hpost => ?_)⟩
    rwa [Multiset.cons_add] at hpost
  | stop e => trivial
  | malformed => trivial

theorem tells_read {a : Attribute} {post : a.Value → Multiset Diagnostic → List CellKey → Prop}
    (ha : o.Wanted r a id) (h : post (o.reference r a id) 0 [⟨.standard a, id⟩]) :
    o.Tells r (Equation.read a id) post := by
  refine ⟨ha, fun p hp => ?_⟩
  change post p.value 0 [⟨.standard a, id⟩]
  rw [hp.1]
  exact h

theorem tells_node {post : Node → Multiset Diagnostic → List CellKey → Prop} (hx : x ∈ o.table r)
    (h : post (nodeAt x) 0 []) : o.Tells r ((o.subject r).node x.1.id) post := by
  rw [Subject.node, node?_subject hx]
  exact h

theorem tells_of_silent {e : Equation α} (he : e.Silent) {a : Attribute} {post : α → Prop}
    (hm : e.Meets (o.terms r True a id) post) : o.Tells r e fun v ds _ => post v ∧ ds = 0 := by
  induction e with
  | done v => exact ⟨hm, rfl⟩
  | probe b m next ih =>
    refine ⟨?_, fun p hp => ih p (he.2 p) (hm.2 p fun _ => hp)⟩
    cases b with
    | unreachable => exact absurd rfl he.1.1
    | raised => exact absurd rfl he.1.2
    | _ => trivial
  | fail d next => exact he.elim
  | report d next => exact he.elim
  | stop e => trivial
  | malformed => trivial

/-! ## Unreachable statements -/

theorem live_of_mem (hx : x ∈ o.table r) : o.live r x.1.id = x.1.reachable :=
  reference_of_mem hx .reachable

theorem predecessor?_of_mem {y : Site × Outline} (hx : x ∈ o.table r) (hy : y ∈ o.table r) {i : Nat}
    (hi : (o.kids r y)[i]? = some x) : (Tree.ofOutline o).predecessor? x.1.id =
      if y.2.kind.isSequence && 0 < i then ((o.kids r y)[i - 1]?).map fun z => z.1.id else none := by
  have hparent : (Tree.ofOutline o).parent? x.1.id = some y.1.id := parent?_of_mem hx hi
  have hindex : (nodeAt x).index = i := (of_mem_offspring hi).2.1
  unfold Tree.predecessor?
  rw [hparent, show (Tree.ofOutline o).node? x.1.id = _ from node?_subject hx, Option.bind_some,
    show (Tree.ofOutline o).node? y.1.id = _ from node?_subject hy]
  dsimp only
  rw [hindex, children_nodeAt (Tree.ofOutline o).constantOf (o.subject r), List.getElem?_map]
  rfl

theorem beginsDeadCode_congr {live live' : NodeId → Bool} (h : ∀ id < o.size, live id = live' id)
    (hx : x ∈ o.table r) : (Tree.ofOutline o).beginsDeadCode live x.1.id =
      (Tree.ofOutline o).beginsDeadCode live' x.1.id := by
  unfold Tree.beginsDeadCode
  rw [show (Tree.ofOutline o).node? x.1.id = _ from node?_subject hx]
  rcases exists_parent hx with rfl | ⟨y, hy, i, -, hi, -, -, -⟩
  · rw [show (Tree.ofOutline o).parent? _ = none from parent?_root hx]
  have hleft : ((Tree.ofOutline o).predecessor? x.1.id).all live =
      ((Tree.ofOutline o).predecessor? x.1.id).all live' := by
    rw [predecessor?_of_mem hx hy hi]
    split
    · cases hz : (o.kids r y)[i - 1]? with
      | none => rfl
      | some z =>
        have hzt := mem_table_of_mem_offspring hy (List.mem_of_getElem? hz)
        exact h z.1.id (id_lt_of_mem_table hzt)
    · rfl
  rw [show (Tree.ofOutline o).parent? x.1.id = some y.1.id from parent?_of_mem hx hi]
  dsimp only
  rw [h x.1.id (id_lt_of_mem_table hx), h y.1.id (id_lt_of_mem_table hy), hleft]

theorem unreachable_eq (hx : x ∈ o.table r) :
    o.valueAt r x .unreachable = (Tree.ofOutline o).beginsDeadCode (o.live r) x.1.id := by
  have hnode : (Tree.ofOutline o).node? x.1.id = some (nodeAt x) := node?_subject hx
  unfold Tree.beginsDeadCode
  rcases exists_parent hx with rfl | ⟨y, hy, i, before, hi, hsite, hzero, hsucc⟩
  · rw [hnode, show (Tree.ofOutline o).parent? _ = none from parent?_root hx]
    rfl
  have hparent : (Tree.ofOutline o).parent? x.1.id = some y.1.id := parent?_of_mem hx hi
  have hleft : Site.preceded y.2 before =
      ((Tree.ofOutline o).predecessor? x.1.id).all (o.live r) := by
    rw [predecessor?_of_mem hx hy hi]
    cases i with
    | zero =>
      rw [hzero rfl, if_neg (by simp)]
      rfl
    | succ j =>
      obtain ⟨z, hz, rfl, -⟩ := hsucc j rfl
      have hzt := mem_table_of_mem_offspring hy (List.mem_of_getElem? hz)
      rw [Nat.add_sub_cancel, hz, decide_eq_true (Nat.succ_pos j), Bool.and_true]
      unfold Site.preceded
      dsimp only
      split
      · exact (live_of_mem hzt).symm
      · rfl
  rw [hnode, hparent]
  dsimp only
  rw [live_of_mem hx, live_of_mem hy, ← hleft]
  change x.1.unreachable = _
  rw [hsite]
  rfl

theorem tells_unreachable (hx : x ∈ o.table r) :
    o.Tells r ((o.subject r).unreachable x.1.id) fun _ ds _ =>
      ds = (o.subject r).dues (o.live r) .unreachable x.1.id := by
  have hdues : (o.subject r).dues (o.live r) .unreachable x.1.id =
      if o.valueAt r x .unreachable then
        {⟨.unreachableStatement, "unreachable statement", x.2.location⟩} else 0 := by
    rw [unreachable_eq hx]
    change Subject.deadCode _ _ _ = _
    unfold Subject.deadCode
    rw [node?_subject hx]
    rfl
  refine .bind ((tells_of_silent ((o.subject r).silent_beginsDeadCode _)
    (meets_beginsDeadCode hx)).mono fun begins ds seen h => ?_)
  obtain ⟨hbegins, rfl⟩ := h
  rw [hdues, ← hbegins trivial]
  cases begins with
  | false => exact Multiset.add_zero 0
  | true => exact .bind (tells_node hx ⟨nofun, rfl⟩)

/-! ## Failures -/

/-- The equation fails at once and tells why, or it tells nothing. -/
def FailsOrSilent (e : Equation α) (due : Multiset Diagnostic) : Prop :=
  (∃ d v, e = .fail d (.done v) ∧ d.kind ≠ .cyclicDefinition ∧ due = {d}) ∨ e.Silent ∧ due = 0

theorem failsOrSilent_jumpLabels (hx : x ∈ o.table r) (label : Option String) :
    FailsOrSilent ((o.subject r).jumpLabels x.1.id (nodeAt x) label)
      ((o.subject r).invalidJump x.1.id) := by
  unfold Subject.jumpLabels Subject.invalidJump
  rw [node?_subject hx]
  cases (o.subject r).tree.jump? x.1.id with
  | none => exact .inr ⟨trivial, rfl⟩
  | some target =>
    cases target with
    | error e => exact .inl ⟨_, _, rfl, nofun, rfl⟩
    | ok target =>
      refine .inr ⟨.bind (Equation.silent_read (by decide)) fun live => ?_, rfl⟩
      split
      · trivial
      · trivial

theorem dues_breaks (hx : x ∈ o.table r) (live : NodeId → Bool) :
    (o.subject r).dues live .breaks x.1.id =
      match x.2.kind with
      | .breakTo _ => (o.subject r).invalidJump x.1.id
      | _ => 0 := by
  unfold Subject.dues
  dsimp only
  rw [node?_subject hx]
  cases hk : x.2.kind with
  | _ =>
    rw [Option.map_some, show (nodeAt x).kind = _ from hk]

theorem dues_continues (hx : x ∈ o.table r) (live : NodeId → Bool) :
    (o.subject r).dues live .continues x.1.id =
      match x.2.kind with
      | .continueTo _ => (o.subject r).invalidJump x.1.id
      | _ => 0 := by
  unfold Subject.dues
  dsimp only
  rw [node?_subject hx]
  cases hk : x.2.kind with
  | _ =>
    rw [Option.map_some, show (nodeAt x).kind = _ from hk]

theorem escapes_of_mem (j : Jump) (hx : x ∈ o.table r) :
    (o.subject r).escapes j x.1.id =
      match x.2.kind, j with
      | .breakTo label, .break => (o.subject r).jumpLabels x.1.id (nodeAt x) label
      | .continueTo label, .continue => (o.subject r).jumpLabels x.1.id (nodeAt x) label
      | .breakTo _, _ | .continueTo _, _ => pure .empty
      | _, _ => Subject.escapingAny j .empty ((o.subject r).tree.statements (nodeAt x)) >>=
        (o.subject r).absorb j x.1.id (nodeAt x) := by
  unfold Subject.escapes Subject.node
  rw [node?_subject hx]
  rfl

theorem failsOrSilent_escapes (j : Jump) (hx : x ∈ o.table r) :
    FailsOrSilent ((o.subject r).escapes j x.1.id)
      ((o.subject r).dues (o.live r) (jumpAttr j) x.1.id) := by
  have hinner : Equation.Silent (do
      let labels ← Subject.escapingAny j .empty ((o.subject r).tree.statements (nodeAt x))
      (o.subject r).absorb j x.1.id (nodeAt x) labels) :=
    .bind (Subject.silent_escapingAny j _ _) fun _ => Subject.silent_absorb _ j _ _ _
  have hjump := fun label => failsOrSilent_jumpLabels hx label
  rw [escapes_of_mem j hx]
  cases j with
  | «break» =>
    change FailsOrSilent _ ((o.subject r).dues (o.live r) .breaks x.1.id)
    rw [dues_breaks hx]
    cases hk : x.2.kind with
    | breakTo label => exact hjump label
    | continueTo label => exact .inr ⟨trivial, rfl⟩
    | _ => exact .inr ⟨hinner, rfl⟩
  | «continue» =>
    change FailsOrSilent _ ((o.subject r).dues (o.live r) .continues x.1.id)
    rw [dues_continues hx]
    cases hk : x.2.kind with
    | breakTo label => exact .inr ⟨trivial, rfl⟩
    | continueTo label => exact hjump label
    | _ => exact .inr ⟨hinner, rfl⟩

theorem failsOrSilent_raised (hx : x ∈ o.table r) :
    FailsOrSilent ((o.subject r).raised x.1.id) ((o.subject r).violation x.1.id) := by
  unfold Subject.raised Subject.violation Subject.node
  rw [node?_subject hx]
  cases (o.subject r).rules.raised (o.subject r).tree x.1.id with
  | ok types => exact .inr ⟨trivial, rfl⟩
  | error violation => exact .inl ⟨_, _, rfl, nofun, rfl⟩

/-! ## Exceptions -/

def Reads {α : Type} (o : Outline) (r : RuleProvider) (e : Equation α) (cells : List CellKey) : Prop :=
  o.Tells r e fun _ ds seen => ds = 0 ∧ cells ⊆ seen

theorem Reads.bind {e : Equation α} {f : α → Equation β} {cells cells' : List CellKey}
    (he : o.Reads r e cells) (hf : ∀ a, o.Reads r (f a) cells') :
    o.Reads r (e >>= f) (cells ++ cells') := by
  refine Tells.bind (Tells.mono he fun a ds seen h => Tells.mono (hf a) fun b ds' seen' h' => ?_)
  refine ⟨by rw [h.1, h'.1, Multiset.add_zero], List.append_subset.2 ⟨?_, ?_⟩⟩
  · exact fun c hc => List.mem_append_left _ (h.2 hc)
  · exact fun c hc => List.mem_append_right _ (h'.2 hc)

theorem reads_pure (a : α) : o.Reads r (pure a) [] :=
  ⟨rfl, List.nil_subset _⟩

theorem reads_read {a : Attribute} (ha : o.Wanted r a id) :
    o.Reads r (Equation.read a id) [⟨.standard a, id⟩] :=
  tells_read ha ⟨rfl, List.Subset.refl _⟩

theorem reads_kid (m : NodeId) :
    o.Reads r (Equation.read .propagated m) [⟨.standard .propagated, m⟩] :=
  reads_read trivial

theorem reads_propagatedAny (ids : List NodeId) (found : TypeSet) :
    o.Reads r (Subject.propagatedAny found ids) (ids.map fun m => ⟨.standard .propagated, m⟩) := by
  induction ids generalizing found with
  | nil => exact reads_pure found
  | cons id rest ih => exact (reads_kid id).bind fun _ => ih _

theorem reads_finalizer {last : List (Site × Outline)}
    (hlast : last = [] ∨ ∃ f, last = [f] ∧ f.2.kind = .finallyClause) (leaving : TypeSet) :
    o.Reads r (match last.head?.map fun y => y.1.id with
      | none => pure leaving
      | some finalizer => do
        let last ← Equation.read .propagated finalizer
        if ← Equation.read .completes finalizer then return leaving.union last else return last)
      ((last.map fun y => y.1.id).map fun m => ⟨.standard .propagated, m⟩) := by
  rcases hlast with rfl | ⟨f, rfl, -⟩
  · exact reads_pure leaving
  · refine (reads_kid f.1.id).bind fun thrown => ?_
    refine Tells.bind (tells_read trivial ?_)
    split
    · exact ⟨rfl, List.nil_subset _⟩
    · exact ⟨rfl, List.nil_subset _⟩

theorem reads_leavingTry {body : Site × Outline} {catches last : List (Site × Outline)}
    (hx : x ∈ o.table r) (h : TryParts o r x body catches last) :
    o.Reads r ((o.subject r).leavingTry x.1.id)
      (((o.kids r x).map fun y => y.1.id).map fun m => ⟨.standard .propagated, m⟩) := by
  have hlen := TryParts.length_types h.isCatch
  have hcatches : ((catches.map fun y => y.1.id).zip (TryParts.types catches)).map Prod.fst =
      catches.map fun y => y.1.id := by
    apply List.map_fst_zip
    rw [List.length_map]
    omega
  have hshape := tells_of_silent (Subject.silent_tryShape _ _)
    (meets_tryShape (T := o.terms r True .propagated x.1.id) hx h rfl)
  refine Tells.bind (hshape.mono fun parts ds seen hparts => ?_)
  obtain ⟨rfl, rfl⟩ := hparts
  have hall : o.Reads r _ _ := (reads_kid (o := o) (r := r) body.1.id).bind fun thrown =>
    (reads_propagatedAny (o := o) (r := r)
      (((catches.map fun y => y.1.id).zip (TryParts.types catches)).map Prod.fst)
      (thrown.retain ((o.subject r).isUncaught
        ((catches.map fun y => y.1.id).zip (TryParts.types catches))))).bind
        (reads_finalizer h.last)
  refine Tells.mono hall fun v ds' seen' hv => ⟨by rw [hv.1, Multiset.add_zero], fun c hc => ?_⟩
  apply List.mem_append_right
  apply hv.2
  rw [h.kids] at hc
  rw [hcatches]
  simpa using hc

theorem reads_parts (hs : o.Shaped) (hx : x ∈ o.table r) (own : TypeSet) :
    o.Reads r (do
        let n ← (o.subject r).node x.1.id
        if n.kind = .tryCatch then return own.union (← (o.subject r).leavingTry x.1.id)
        else Subject.propagatedAny own n.children)
      ((nodeAt x).children.map fun m => ⟨.standard .propagated, m⟩) := by
  refine Tells.bind (tells_node hx ?_)
  by_cases hk : x.2.kind = .tryCatch
  · obtain ⟨body, catches, last, hparts⟩ := exists_tryParts hs hx hk
    rw [if_pos (show (nodeAt x).kind = .tryCatch from hk),
      children_nodeAt (Tree.ofOutline o).constantOf (o.subject r)]
    refine ((reads_leavingTry hx hparts).bind fun leaving => reads_pure _).mono
      fun _ ds seen h => ⟨by rw [h.1, Multiset.add_zero], fun c hc => ?_⟩
    exact h.2 (List.mem_append_left _ hc)
  · rw [if_neg (show ¬(nodeAt x).kind = .tryCatch from hk)]
    exact Tells.mono (reads_propagatedAny _ own) fun _ ds seen h =>
      ⟨by rw [h.1, Multiset.add_zero], h.2⟩

theorem needs_propagated (hx : x ∈ o.table r) : o.needs r .propagated x.1.id =
    if o.live r x.1.id then
      ⟨.standard .raised, x.1.id⟩ :: (nodeAt x).children.map fun m => ⟨.standard .propagated, m⟩
    else [] := by
  have hnode : (Tree.ofOutline o).node? x.1.id = some (nodeAt x) := node?_subject hx
  unfold needs
  dsimp only
  rw [hnode]
  cases o.live r x.1.id with
  | true => rfl
  | false => rfl

theorem reads_propagated (hs : o.Shaped) (hx : x ∈ o.table r) :
    o.Reads r ((o.subject r).propagated x.1.id) (o.needs r .propagated x.1.id) := by
  rw [needs_propagated hx]
  refine Tells.bind (tells_read trivial ?_)
  change o.Tells r (if (!o.live r x.1.id) = true then _ else _) _
  cases hlive : o.live r x.1.id with
  | false => exact ⟨rfl, List.nil_subset _⟩
  | true =>
    refine ((reads_read (a := .raised) hlive).bind fun own => reads_parts hs hx own).mono
      fun _ ds seen h => ⟨by rw [h.1, Multiset.add_zero], fun c hc => ?_⟩
    exact List.mem_cons_of_mem _ (h.2 hc)

/-! ## All attributes -/

/-- The equation fails at once and tells why, or it tells what is due and reads the
given cells. -/
def Discloses {α : Type} (o : Outline) (r : RuleProvider) (e : Equation α)
    (due : Multiset Diagnostic) (cells : List CellKey) : Prop :=
  (∃ d v, e = .fail d (.done v) ∧ d.kind ≠ .cyclicDefinition ∧ due = {d} ∧ cells = []) ∨
    o.Tells r e fun _ ds seen => ds = due ∧ cells ⊆ seen

theorem FailsOrSilent.discloses {e : Equation α} {due : Multiset Diagnostic}
    (h : FailsOrSilent e due) {a : Attribute} {post : α → Prop}
    (hm : e.Meets (o.terms r True a id) post) : o.Discloses r e due [] := by
  rcases h with ⟨d, v, he, hkind, hdue⟩ | ⟨hsilent, rfl⟩
  · exact .inl ⟨d, v, he, hkind, hdue, rfl⟩
  · exact .inr ((tells_of_silent hsilent hm).mono fun _ _ _ hv => ⟨hv.2, List.nil_subset _⟩)

theorem equation_discloses (hs : o.Shaped) {a : Attribute} (ha : a ≠ .constant) {id : Nat}
    (hid : id < o.size) :
    o.Discloses r ((o.subject r).equation a id) ((o.subject r).dues (o.live r) a id)
      (o.needs r a id) := by
  have hmeets := equation_meets (r := r) hs True a hid
  obtain ⟨x, hx, rfl⟩ := exists_mem_table r hid
  cases a with
  | reachable => exact FailsOrSilent.discloses (.inr ⟨Subject.silent_reachable _ _, rfl⟩) hmeets
  | completes => exact FailsOrSilent.discloses (.inr ⟨Subject.silent_completes _ _, rfl⟩) hmeets
  | constant => exact absurd rfl ha
  | breaks => exact (failsOrSilent_escapes .break hx).discloses hmeets
  | continues => exact (failsOrSilent_escapes .continue hx).discloses hmeets
  | raised => exact (failsOrSilent_raised hx).discloses hmeets
  | unreachable =>
    exact .inr ((tells_unreachable hx).mono fun _ _ _ h => ⟨h, List.nil_subset _⟩)
  | propagated => exact .inr (reads_propagated hs hx)

end Outline

end Attribution
