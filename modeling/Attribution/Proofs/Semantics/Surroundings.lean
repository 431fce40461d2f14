import Mathlib.Data.List.Find
import Attribution.Proofs.PackedSet
import Attribution.Proofs.Reference.Solution
import Attribution.Proofs.Semantics.Execution
/-!
# Nodes in their surroundings

What executions need to know of a node's children: whether control comes to them
(`chained_kids`, `reachable_kid`), and where jumps out of them lead. A jump leads to
the innermost scope that its label fits (`Target`), so on its way out of a
statement it either ends there or is a jump of the statement itself.
-/

namespace Attribution

namespace Outline

variable {o : Outline} {r : RuleProvider} {x y z : Site × Outline} {j : Jump} {l : JumpLabel}
  {t : NodeId} {scopes : List Scope} {scope : Scope}

/-! ## Targets of jumps -/

def jumpKind : Jump → JumpLabel → NodeKind
  | .break, l => .breakTo l.toLabel
  | .continue, l => .continueTo l.toLabel

/-- Where a jump leads from within the scopes. -/
def Target (j : Jump) (scopes : List Scope) (l : JumpLabel) (t : NodeId) : Prop :=
  resolveJump scopes (jumpKind j l) = some (.ok t)

def fits (j : Jump) (scope : Scope) : JumpLabel → Bool
  | .unlabeled => stops j scope.kind
  | .named label => scope.isLabeled label

/-- A continue to a label asks for a loop there. -/
def Heeds (j : Jump) (scope : Scope) (l : JumpLabel) : Prop :=
  j = .continue → l ≠ .unlabeled → scope.holdsLoop = true

theorem target_iff : Target j scopes l t ↔
    ∃ scope, scopes.find? (fun s => fits j s l) = some scope ∧ Heeds j scope l ∧ scope.id = t := by
  unfold Target
  cases j with
  | «break» =>
    cases l with
    | unlabeled =>
      have hfits : (fun s => fits .break s .unlabeled) = Scope.isBreakable := by
        funext s
        exact congrArg (s.kind.isLoop || ·) (Bool.beq_eq_decide_eq _ _).symm
      simp only [jumpKind, JumpLabel.toLabel, resolveJump, hfits]
      cases scopes.find? Scope.isBreakable <;> simp [Heeds]
    | named label =>
      simp only [jumpKind, JumpLabel.toLabel, resolveJump, fits]
      cases scopes.find? fun s => s.isLabeled label <;> simp [Heeds]
  | «continue» =>
    cases l with
    | unlabeled =>
      simp only [jumpKind, JumpLabel.toLabel, resolveJump, fits, stops]
      cases scopes.find? fun s => s.kind.isLoop <;> simp [Heeds]
    | named label =>
      simp only [jumpKind, JumpLabel.toLabel, resolveJump, fits]
      cases h : scopes.find? fun s => s.isLabeled label with
      | none => simp
      | some s =>
        cases hl : s.holdsLoop <;> simp [Heeds, hl]

/-- A jump from inside a scope leads to it, or to where it leads outside. -/
theorem target_cons (h : Target j (scope :: scopes) l t) :
    (fits j scope l = true ∧ Heeds j scope l ∧ t = scope.id) ∨
      (fits j scope l = false ∧ Target j scopes l t) := by
  obtain ⟨found, hfound, hheeds, rfl⟩ := target_iff.1 h
  rw [List.find?_cons] at hfound
  cases hfits : fits j scope l with
  | true =>
    rw [hfits] at hfound
    cases hfound
    exact .inl ⟨rfl, hheeds, rfl⟩
  | false =>
    rw [hfits] at hfound
    exact .inr ⟨rfl, target_iff.2 ⟨found, hfound, hheeds, rfl⟩⟩

theorem Target.exists_mem (h : Target j scopes l t) : ∃ scope ∈ scopes, scope.id = t := by
  obtain ⟨scope, hfound, -, hid⟩ := target_iff.1 h
  exact ⟨scope, List.mem_of_find?_eq_some hfound, hid⟩

theorem scopes_kid (hz : z ∈ o.kids r x) :
    z.1.scopes = x.2.scopesWithin x.1.scopes x.1.id := by
  obtain ⟨i, hi⟩ := List.mem_iff_getElem?.1 hz
  exact (of_mem_offspring hi).2.2.1

theorem scopes_lt (hx : x ∈ o.table r) : ∀ scope ∈ x.1.scopes, scope.id < x.1.id := by
  induction hid : x.1.id using Nat.strongRecOn generalizing x with
  | _ id ih =>
    subst hid
    rcases eq_root_or_mem_offspring o hx with rfl | ⟨y, hy, hmem⟩
    · intro scope hscope
      cases hscope
    · have hlt := lt_of_mem_offspring hmem
      have houter : ∀ scope ∈ y.1.scopes, scope.id < x.1.id := fun scope hscope =>
        Nat.lt_trans (ih y.1.id hlt hy rfl scope hscope) hlt
      rw [scopes_kid hmem, scopesWithin]
      split
      · exact List.forall_mem_cons.2 ⟨hlt, houter⟩
      · exact List.forall_mem_cons.2 ⟨hlt, houter⟩
      · exact List.forall_mem_cons.2 ⟨hlt, houter⟩
      · exact List.forall_mem_cons.2 ⟨hlt, houter⟩
      · exact houter

theorem Target.lt (h : Target j x.1.scopes l t) (hx : x ∈ o.table r) : t < x.1.id := by
  obtain ⟨scope, hmem, rfl⟩ := h.exists_mem
  exact scopes_lt hx scope hmem

/-! ## Children that control comes to -/

/-- Whether control comes to the nodes one after the other: to the first one under
a condition, to the others when the one before completes. -/
def Chained (o : Outline) (r : RuleProvider) (entry : Prop) : List (Site × Outline) → Prop
  | [] => True
  | z :: rest => (entry → z.1.reachable = true) ∧
    Chained o r ((o.part r z).flow.completes = true) rest

theorem Chained.mono {entry entry' : Prop} {zs : List (Site × Outline)} (h : Chained o r entry zs)
    (he : entry' → entry) : Chained o r entry' zs := by
  cases zs with
  | nil => trivial
  | cons z rest => exact ⟨fun hentry => h.1 (he hentry), h.2⟩

theorem chained_of_reachable {entry : Prop} {zs : List (Site × Outline)}
    (h : ∀ z ∈ zs, z.1.reachable = true) : Chained o r entry zs := by
  induction zs generalizing entry with
  | nil => trivial
  | cons z rest ih =>
    obtain ⟨hz, hrest⟩ := List.forall_mem_cons.1 h
    exact ⟨fun _ => hz, ih hrest⟩

theorem chained_childSites {entry : Prop} (hseq : x.2.kind.isSequence = true) (cs : List Outline) :
    ∀ {index id : Nat} {before : Option (Site × Flow)},
    (entry → x.1.enters (Tree.ofOutline o).constantOf x.2 index before = true) →
    Chained o r entry (childSites (Tree.ofOutline o).constantOf (o.subject r) x.1 x.2 index id before cs) := by
  induction cs generalizing entry with
  | nil =>
    intro index id before _
    trivial
  | cons c rest ih =>
    intro index id before hentry
    refine ⟨hentry, ih fun hcompletes => ?_⟩
    rw [Site.enters, if_pos hseq]
    exact hcompletes

theorem chained_kids (hseq : x.2.kind.isSequence = true) :
    Chained o r (x.1.reachable = true) (o.kids r x) :=
  chained_childSites hseq x.2.children id

theorem reachable_first {rest : List (Site × Outline)} (h : o.kids r x = z :: rest) :
    z.1.reachable = x.1.reachable := by
  obtain ⟨before, hsite, hzero, -⟩ := childSites_get (i := 0) x.2.children
    (show (o.kids r x)[0]? = some z by rw [h]; rfl)
  rw [hsite, (hzero rfl).1]
  rfl

theorem reachable_kid (hseq : x.2.kind.isSequence = false) (hloop : x.2.kind ≠ .whileLoop)
    (hz : z ∈ o.kids r x) : z.1.reachable = x.1.reachable := by
  obtain ⟨i, hi⟩ := List.mem_iff_getElem?.1 hz
  obtain ⟨before, hsite, -⟩ := childSites_get x.2.children hi
  have hreach : z.1.reachable =
      Site.enters (Tree.ofOutline o).constantOf x.1 x.2 (0 + i) before := by
    rw [hsite]
    rfl
  rw [hreach]
  cases before with
  | none => rfl
  | some b => simp [Site.enters, hseq, hloop]

theorem reachable_whileBody (hk : x.2.kind = .whileLoop) (h : o.kids r x = [y, z]) :
    z.1.reachable =
      (x.1.reachable && (Tree.ofOutline o).constantOf y.1.id != some (.bool false)) := by
  obtain ⟨before, hsite, -, hsucc⟩ := childSites_get (i := 1) x.2.children
    (show (o.kids r x)[1]? = some z by rw [h]; rfl)
  obtain ⟨y', hy', hbefore, -⟩ := hsucc 0 rfl
  obtain ⟨_, -, hfirst, -⟩ := childSites_get (i := 0) x.2.children
    (show (o.kids r x)[0]? = some y by rw [h]; rfl)
  have hreach : z.1.reachable =
      Site.enters (Tree.ofOutline o).constantOf x.1 x.2 (0 + 1) before := by
    rw [hsite]
    rfl
  rw [hreach, hbefore, (hfirst rfl).2, Site.enters, hk]
  rfl

/-! ## Nodes as the tree stores them -/

theorem kind?_of_mem (hx : x ∈ o.table r) : (o.subject r).tree.kind? x.1.id = some x.2.kind := by
  rw [Tree.kind?, node?_subject hx]
  rfl

theorem has_of_mem (hx : x ∈ o.table r) {kind : NodeKind} {children : List NodeId}
    (h : (o.subject r).tree.Has x.1.id kind children) :
    x.2.kind = kind ∧ (o.kids r x).map (fun z => z.1.id) = children := by
  obtain ⟨n, hn, rfl, rfl⟩ := h
  rw [node?_subject hx] at hn
  cases hn
  exact ⟨rfl, (children_nodeAt _ (o.subject r) x).symm⟩

theorem exists_pair {zs : List (Site × Outline)} {a b : NodeId}
    (h : (zs.map fun z => z.1.id) = [a, b]) : ∃ y z, zs = [y, z] ∧ y.1.id = a ∧ z.1.id = b := by
  obtain ⟨y, rest, rfl, hy, hrest⟩ := List.map_eq_cons_iff.1 h
  obtain ⟨z, rfl, hz⟩ := List.map_eq_singleton_iff.1 hrest
  exact ⟨y, z, rfl, hy, hz⟩

section Clauses

variable {cs : List (Site × Outline)} (hcs : ∀ c ∈ cs, c ∈ o.table r)

include hcs

/-- The clause that handles an exception is the first that names it. -/
theorem exists_of_handler? {type : ExcType} {handler : NodeId}
    (h : (o.subject r).handler? (cs.map fun c => c.1.id) type = some handler) :
    ∃ c ∈ cs, c.1.id = handler ∧ c.2.kind.isCatch = true := by
  obtain ⟨c, hc, rfl⟩ := List.mem_map.1 (List.mem_of_find?_eq_some h)
  have hcaught := List.find?_some h
  rw [kind?_of_mem (hcs c hc)] at hcaught
  refine ⟨c, hc, rfl, ?_⟩
  cases hk : c.2.kind with
  | catchClause type => rfl
  | _ =>
    rw [hk] at hcaught
    cases hcaught

theorem uncaught_of_handler? {type : ExcType}
    (h : (o.subject r).handler? (cs.map fun c => c.1.id) type = none) {c : Site × Outline}
    (hc : c ∈ cs) {caught : ExcType} (hk : c.2.kind.caught? = some caught) :
    r.isSubtype type caught = false := by
  have hnone := List.find?_eq_none.1 h c.1.id (List.mem_map.2 ⟨c, hc, rfl⟩)
  rw [kind?_of_mem (hcs c hc)] at hnone
  cases hkind : c.2.kind with
  | catchClause type =>
    rw [hkind] at hk hnone
    cases hk
    exact Bool.eq_false_iff.2 hnone
  | _ =>
    rw [hkind] at hk
    cases hk

theorem finalizer?_eq : ∃ found : Option (Site × Outline),
    (o.subject r).finalizer? (cs.map fun c => c.1.id) = found.map (fun c => c.1.id) ∧
    Flow.finalizer? (cs.map (o.part r)) = found.map (o.part r) ∧ ∀ f, found = some f → f ∈ cs := by
  refine ⟨cs.find? fun c => c.2.kind = .finallyClause, ?_, ?_, fun f => List.mem_of_find?_eq_some⟩
  · rw [Subject.finalizer?, List.find?_map]
    congr 1
    apply List.find?_congr
    intro c hc
    simp only [Function.comp, kind?_of_mem (hcs c hc), Option.some.injEq]
  · rw [Flow.finalizer?, List.find?_map]
    rfl

end Clauses

end Outline

end Attribution
