import Attribution.Proofs.Reference.Liveness
import Attribution.Proofs.Reference.Subtree
import Attribution.Proofs.Semantics.Statement
/-!
# What leaves a node, and from where

A jump leaves a node when it stands in it and leads out of it. An exception leaves
it when a node inside raises the exception and no handler on its way out stops it.
Neither gets past a finalizer that does not complete.
-/

namespace Attribution

namespace Outline

variable {o : Outline} {r : RuleProvider} {x y z b f : Site × Outline} {j : Jump} {l : JumpLabel}
  {t : NodeId} {type : ExcType}

/-! ## The way out -/

def TriesOut (o : Outline) (r : RuleProvider) (P : Site × Outline → Prop) (x b : Site × Outline) :
    Prop :=
  ∀ y ∈ o.subtree r x, y.2.kind = .tryCatch → y ≠ b → b ∈ o.subtree r y → P y

theorem triesOut_self (P : Site × Outline → Prop) (hx : x ∈ o.table r) : o.TriesOut r P x x :=
  fun _ hy _ hne hxy => absurd (eq_of_mem_subtree hx hy hxy) hne

theorem triesOut_kid {P : Site × Outline → Prop} (hz : z ∈ o.kids r x)
    (hb : b ∈ o.subtree r z) :
    o.TriesOut r P x b ↔ o.TriesOut r P z b ∧ (x.2.kind = .tryCatch → P x) := by
  constructor
  · intro h
    refine ⟨fun y hy => h y (mem_subtree_of_kid hz hy), fun hk => ?_⟩
    refine h x (self_mem_subtree x) hk ?_ (mem_subtree_of_kid hz hb)
    rintro rfl
    exact not_mem_subtree_kid hz hb
  · rintro ⟨hinner, hself⟩ y hy hk hne hby
    rcases mem_subtree_iff.1 hy with rfl | ⟨z', hz', hyz⟩
    · exact hself hk
    · obtain rfl := kid_unique hz' hz (subtree_subset hyz hby) hb
      exact hinner y hyz hk hne hby

/-- The finalizer of a try statement lets pass what comes from `b`. -/
def Finalizes (o : Outline) (r : RuleProvider) (b y : Site × Outline) : Prop :=
  ∀ f ∈ o.kids r y, f.2.kind = .finallyClause → b ∉ o.subtree r f →
    (o.part r f).flow.completes = true

/-- What comes from `b` and leaves `x` gets past the finalizers on its way. -/
def Passes (o : Outline) (r : RuleProvider) (x b : Site × Outline) : Prop :=
  o.TriesOut r (o.Finalizes r b) x b

section Try

variable {body : Site × Outline} {catches last : List (Site × Outline)}

theorem TryParts.mem_last_iff (h : TryParts o r x body catches last) (hf : f ∈ o.kids r x) :
    f.2.kind = .finallyClause ↔ f ∈ last := by
  rw [h.kids, List.mem_append, List.mem_cons] at hf
  constructor
  · intro hk
    rcases hf with (rfl | hf) | hf
    · have hclause := h.isClause
      rw [hk] at hclause
      cases hclause
    · exact absurd hk (TryParts.not_finally h.isCatch hf)
    · exact hf
  · intro hmem
    rcases h.last with rfl | ⟨f', rfl, hk⟩
    · cases hmem
    · rw [List.mem_singleton.1 hmem]
      exact hk

theorem TryParts.finalizes_iff (h : TryParts o r x body catches last) (hz : z ∈ o.kids r x)
    (hb : b ∈ o.subtree r z) :
    o.Finalizes r b x ↔ ∀ f ∈ last, z ≠ f → (o.part r f).flow.completes = true := by
  constructor
  · intro hfin f hf hne
    have hmem := h.last_mem hf
    refine hfin f hmem ((h.mem_last_iff hmem).2 hf) ?_
    intro hbf
    exact hne (kid_unique hz hmem hb hbf)
  · intro hlast f hf hk hbf
    refine hlast f ((h.mem_last_iff hf).1 hk) ?_
    rintro rfl
    exact hbf hb

end Try

/-! ## Jumps -/

/-- The jump `b` leaves `x` for `t`. -/
structure Departs (o : Outline) (r : RuleProvider) (j : Jump) (l : JumpLabel)
    (x b : Site × Outline) (t : NodeId) : Prop where
  mem : b ∈ o.subtree r x
  kind : b.2.kind = jumpKind j l
  reachable : b.1.reachable = true
  target : Target j b.1.scopes l t
  leaves : t < x.1.id
  passes : o.Passes r x b

theorem isStatement_jumpKind (j : Jump) (l : JumpLabel) : (jumpKind j l).isStatement = true := by
  cases j with
  | «break» => rfl
  | «continue» => rfl

theorem scopes_subtree (hb : b ∈ o.subtree r x) :
    ∃ inner, b.1.scopes = inner ++ x.1.scopes ∧ ∀ s ∈ inner, x.1.id ≤ s.id := by
  induction hn : x.2.size using Nat.strongRecOn generalizing x with
  | _ n ih =>
    rcases mem_subtree_iff.1 hb with rfl | ⟨z, hz, hbz⟩
    · exact ⟨[], rfl, nofun⟩
    · have hlt := lt_of_mem_offspring hz
      have hend := end_le_of_mem_offspring hz
      obtain ⟨inner, hscopes, hinner⟩ := ih z.2.size (by omega) hbz rfl
      have hle : ∀ s ∈ inner, x.1.id ≤ s.id := fun s hs =>
        Nat.le_trans (Nat.le_of_lt hlt) (hinner s hs)
      cases hk : x.2.kind.isScope with
      | false =>
        rw [scopes_kid_of_plain hk hz] at hscopes
        exact ⟨inner, hscopes, hle⟩
      | true =>
        rw [scopes_kid_of_scope hk hz] at hscopes
        refine ⟨inner ++ [scopeAt x], by rw [hscopes, List.append_assoc]; rfl, fun s hs => ?_⟩
        rcases List.mem_append.1 hs with hs | hs
        · exact hle s hs
        · rw [List.mem_singleton.1 hs]
          exact Nat.le_refl _

/-- A jump out of a node leads where the same jump leads that stands in its place. -/
theorem target_subtree (hb : b ∈ o.subtree r x) (h : Target j b.1.scopes l t)
    (ht : t < x.1.id) : Target j x.1.scopes l t := by
  obtain ⟨inner, hscopes, hinner⟩ := scopes_subtree hb
  obtain ⟨scope, hfound, hheeds, rfl⟩ := target_iff.1 h
  rw [hscopes, List.find?_append] at hfound
  cases hin : inner.find? fun s => fits j s l with
  | none =>
    rw [hin, Option.none_or] at hfound
    exact target_iff.2 ⟨scope, hfound, hheeds, rfl⟩
  | some s =>
    rw [hin, Option.some_or] at hfound
    cases hfound
    exact absurd ht (Nat.not_lt_of_le (hinner scope (List.mem_of_find?_eq_some hin)))

theorem Departs.of_kid (hx : x ∈ o.table r) (hz : z ∈ o.kids r x) (h : o.Departs r j l z b t)
    (hscope : x.2.kind.isScope = true → fits j (scopeAt x) l = false)
    (hfin : x.2.kind = .tryCatch → o.Finalizes r b x) : o.Departs r j l x b t := by
  refine ⟨mem_subtree_of_kid hz h.mem, h.kind, h.reachable, h.target, ?_,
    (triesOut_kid hz h.mem).2 ⟨h.passes, hfin⟩⟩
  have htarget := target_subtree h.mem h.target h.leaves
  cases hk : x.2.kind.isScope with
  | false =>
    rw [scopes_kid_of_plain hk hz] at htarget
    exact htarget.lt hx
  | true =>
    rw [scopes_kid_of_scope hk hz] at htarget
    rcases target_cons htarget with ⟨hfits, -⟩ | ⟨-, houter⟩
    · rw [hscope hk] at hfits
      cases hfits
    · exact houter.lt hx

/-- What leaves a node that is no jump leaves one of its children. -/
theorem Departs.exists_kid (hk : x.2.kind ≠ jumpKind j l) (h : o.Departs r j l x b t) :
    ∃ z ∈ o.kids r x, o.Departs r j l z b t ∧
      (x.2.kind.isScope = true → fits j (scopeAt x) l = false) ∧
      (x.2.kind = .tryCatch → o.Finalizes r b x) := by
  rcases mem_subtree_iff.1 h.mem with rfl | ⟨z, hz, hbz⟩
  · exact absurd h.kind hk
  · obtain ⟨hpasses, hfin⟩ := (triesOut_kid hz hbz).1 h.passes
    have hlt : t < z.1.id := Nat.lt_trans h.leaves (lt_of_mem_offspring hz)
    refine ⟨z, hz, ⟨hbz, h.kind, h.reachable, h.target, hlt, hpasses⟩, fun hscope => ?_, hfin⟩
    have htarget := target_subtree hbz h.target hlt
    rw [scopes_kid_of_scope hscope hz] at htarget
    rcases target_cons htarget with ⟨-, -, hid⟩ | ⟨hfits, -⟩
    · exact absurd hid (Nat.ne_of_lt h.leaves)
    · exact hfits

theorem labels_of_plain (hjump : ∀ j l, x.2.kind ≠ jumpKind j l) (htry : x.2.kind ≠ .tryCatch) :
    labelsOf j (o.part r x).flow = match x.2.kind with
      | .labeled label => (o.escaping r j x).without (.named label)
      | kind => if stops j kind then (o.escaping r j x).without .unlabeled
        else o.escaping r j x := by
  rw [labels_part]
  cases hk : x.2.kind with
  | tryCatch => exact absurd hk htry
  | breakTo label =>
    cases label with
    | none => exact absurd hk (hjump .break .unlabeled)
    | some label => exact absurd hk (hjump .break (.named label))
  | continueTo label =>
    cases label with
    | none => exact absurd hk (hjump .continue .unlabeled)
    | some label => exact absurd hk (hjump .continue (.named label))
  | _ =>
    cases j with
    | «break» => rfl
    | «continue» => rfl

theorem isScope_of_stops {kind : NodeKind} (h : stops j kind = true) : kind.isScope = true := by
  cases kind with
  | whileLoop | doWhile | switch | labeled _ => rfl
  | _ => cases j <;> cases h

theorem fits_labeled {label : String} (hk : x.2.kind = .labeled label) :
    fits j (scopeAt x) l = false ↔ l ≠ .named label := by
  cases l with
  | unlabeled => cases j <;> simp [fits, scopeAt, hk, stops, NodeKind.isLoop]
  | named label' =>
    simp only [fits, Scope.isLabeled, scopeAt, hk, beq_eq_false_iff_ne, ne_eq,
      NodeKind.labeled.injEq, JumpLabel.named.injEq]
    exact not_congr eq_comm

theorem fits_of_not_labeled (hk : ∀ label, x.2.kind ≠ .labeled label) :
    fits j (scopeAt x) l = false ↔ (stops j x.2.kind = true → l ≠ .unlabeled) := by
  cases l with
  | unlabeled => simp [fits, scopeAt]
  | named label => simp [fits, scopeAt, Scope.isLabeled, hk label]

/-- A scope stops the jumps that fit it; other statements stop none. -/
theorem label_iff_escaping (hjump : ∀ j l, x.2.kind ≠ jumpKind j l) (htry : x.2.kind ≠ .tryCatch) :
    (labelsOf j (o.part r x).flow).contains l = true ↔ (o.escaping r j x).contains l = true ∧
      (x.2.kind.isScope = true → fits j (scopeAt x) l = false) := by
  rw [labels_of_plain hjump htry]
  split
  · rename_i label hk
    rw [PackedSet.contains_without, fits_labeled hk, hk]
    simp [NodeKind.isScope]
  · rename_i hk
    rw [fits_of_not_labeled hk]
    split
    · rename_i hstops
      rw [PackedSet.contains_without]
      simp [hstops, isScope_of_stops hstops]
    · rename_i hstops
      simp [hstops]

theorem escaping_iff (hs : o.Shaped) (hx : x ∈ o.table r)
    (ih : ∀ z ∈ o.kids r x, (labelsOf j (o.part r z).flow).contains l = true ↔
      ∃ b t, o.Departs r j l z b t) :
    (o.escaping r j x).contains l = true ↔ ∃ z ∈ o.kids r x, ∃ b t, o.Departs r j l z b t := by
  rw [escaping, PackedSet.contains_foldl_union]
  constructor
  · rintro (hempty | ⟨q, hq, hl⟩)
    · cases hempty
    · obtain ⟨z, hz, rfl⟩ := List.mem_map.1 (List.mem_filter.1 hq).1
      exact ⟨z, hz, (ih z hz).1 hl⟩
  · rintro ⟨z, hz, b, t, h⟩
    refine .inr ⟨o.part r z, List.mem_filter.2 ⟨List.mem_map.2 ⟨z, hz, rfl⟩, ?_⟩,
      (ih z hz).2 ⟨b, t, h⟩⟩
    -- There are no jumps inside an expression.
    cases hk : z.2.kind.isExpression with
    | false => exact congrArg not hk
    | true =>
      have hb := isExpression_subtree hs (mem_table_of_mem_offspring hx hz) hk h.mem
      have hjump := isStatement_jumpKind j l
      rw [← h.kind, NodeKind.isStatement, hb] at hjump
      cases hjump

theorem ofLabel_toLabel (l : JumpLabel) : JumpLabel.ofLabel l.toLabel = l := by
  cases l with
  | unlabeled => rfl
  | named label => rfl

theorem of_label_jump {j' : Jump} {l' : JumpLabel} (hk : x.2.kind = jumpKind j' l')
    (h : (labelsOf j (o.part r x).flow).contains l = true) :
    x.2.kind = jumpKind j l ∧ x.1.reachable = true ∧ ∃ t, Target j x.1.scopes l t := by
  have hby : (Flow.jumpBy x.1 (jumpKind j' l') l'.toLabel).contains l = true →
      l = l' ∧ x.1.reachable = true ∧ ∃ t, Target j' x.1.scopes l' t := by
    unfold Flow.jumpBy
    split
    · rename_i t htarget
      split
      · rename_i hreach
        intro hl
        rw [PackedSet.contains_singleton, ofLabel_toLabel] at hl
        exact ⟨hl, hreach, t, htarget⟩
      · exact nofun
    · exact nofun
  rw [labels_part, hk] at h
  cases j with
  | «break» =>
    cases j' with
    | «break» =>
      obtain ⟨rfl, hreach, htarget⟩ := hby h
      exact ⟨hk, hreach, htarget⟩
    | «continue» => cases h
  | «continue» =>
    cases j' with
    | «break» => cases h
    | «continue» =>
      obtain ⟨rfl, hreach, htarget⟩ := hby h
      exact ⟨hk, hreach, htarget⟩

theorem label_jump_iff (hs : o.Shaped) (hx : x ∈ o.table r) {j' : Jump} {l' : JumpLabel}
    (hk : x.2.kind = jumpKind j' l') : (labelsOf j (o.part r x).flow).contains l = true ↔
      ∃ b t, o.Departs r j l x b t := by
  constructor
  · intro h
    obtain ⟨hkind, hreach, t, htarget⟩ := of_label_jump hk h
    exact ⟨x, t, self_mem_subtree x, hkind, hreach, htarget, htarget.lt hx, triesOut_self _ hx⟩
  · rintro ⟨b, t, h⟩
    have hkids : o.kids r x = [] := by
      apply kids_jump hs hx
      cases j' with
      | «break» => exact .inl ⟨_, hk⟩
      | «continue» => exact .inr ⟨_, hk⟩
    rcases mem_subtree_iff.1 h.mem with rfl | ⟨z, hz, -⟩
    · have hjump : (o.subject r).tree.jump? b.1.id = some (.ok t) := by
        rw [show (o.subject r).tree.jump? b.1.id = resolveJump b.1.scopes b.2.kind from
          Tree.jump?_of_mem hx, h.kind]
        exact h.target
      exact (allows_of_jump hx h.kind h.reachable hjump).label
    · rw [hkids] at hz
      cases hz

theorem label_try_iff (hs : o.Shaped) (hx : x ∈ o.table r) (hk : x.2.kind = .tryCatch)
    (ih : ∀ z ∈ o.kids r x, (labelsOf j (o.part r z).flow).contains l = true ↔
      ∃ b t, o.Departs r j l z b t) :
    (labelsOf j (o.part r x).flow).contains l = true ↔ ∃ b t, o.Departs r j l x b t := by
  obtain ⟨body, catches, last, hparts⟩ := exists_tryParts hs hx hk
  have hescaping := escaping_iff hs hx ih
  have hjump : x.2.kind ≠ jumpKind j l := by
    rw [hk]
    cases j <;> exact nofun
  have hplain : x.2.kind.isScope = true → fits j (scopeAt x) l = false := by
    rw [hk]
    exact nofun
  -- The finalizer decides which of the jumps out of the children get past it.
  have hiff : (∃ b t, o.Departs r j l x b t) ↔ ∃ z ∈ o.kids r x,
      (∀ f ∈ last, z ≠ f → (o.part r f).flow.completes = true) ∧ ∃ b t, o.Departs r j l z b t := by
    constructor
    · rintro ⟨b, t, h⟩
      obtain ⟨z, hz, hdeparts, -, hfin⟩ := h.exists_kid hjump
      exact ⟨z, hz, (hparts.finalizes_iff hz hdeparts.mem).1 (hfin hk), b, t, hdeparts⟩
    · rintro ⟨z, hz, hlast, b, t, h⟩
      exact ⟨b, t, h.of_kid hx hz hplain fun _ => (hparts.finalizes_iff hz h.mem).2 hlast⟩
  have hkids : o.kids r x = body :: (catches ++ last) := hparts.kids
  rw [labels_try hk hkids, hparts.finalizer?, hiff]
  rcases hparts.last with rfl | ⟨f, rfl, -⟩
  · simpa using hescaping
  · have hf := hparts.last_mem (f := f) List.mem_cons_self
    simp only [List.head?_cons, Option.map_some, List.mem_singleton, forall_eq]
    split
    · rename_i hcompletes
      simpa [hcompletes] using hescaping
    · rename_i hcompletes
      rw [ih f hf]
      constructor
      · intro h
        exact ⟨f, hf, fun hne => absurd rfl hne, h⟩
      · rintro ⟨z, hz, hlast, h⟩
        by_cases hzf : z = f
        · rw [← hzf]
          exact h
        · exact absurd (hlast hzf) hcompletes

/-- **The jumps that leave a node** are those inside it that lead out of it. -/
theorem label_iff (hs : o.Shaped) (hx : x ∈ o.table r) :
    (labelsOf j (o.part r x).flow).contains l = true ↔ ∃ b t, o.Departs r j l x b t := by
  induction hn : x.2.size using Nat.strongRecOn generalizing x with
  | _ n ih =>
    have hkids : ∀ z ∈ o.kids r x, (labelsOf j (o.part r z).flow).contains l = true ↔
        ∃ b t, o.Departs r j l z b t := by
      intro z hz
      have hlt := lt_of_mem_offspring hz
      have hend := end_le_of_mem_offspring hz
      exact ih z.2.size (by omega) (mem_table_of_mem_offspring hx hz) rfl
    by_cases hjump : ∃ j' l', x.2.kind = jumpKind j' l'
    · obtain ⟨j', l', hk⟩ := hjump
      exact label_jump_iff hs hx hk
    by_cases htry : x.2.kind = .tryCatch
    · exact label_try_iff hs hx htry hkids
    have hne : ∀ j' l', x.2.kind ≠ jumpKind j' l' := fun j' l' hk => hjump ⟨j', l', hk⟩
    rw [label_iff_escaping hne htry, escaping_iff hs hx hkids]
    constructor
    · rintro ⟨⟨z, hz, b, t, h⟩, hscope⟩
      exact ⟨b, t, h.of_kid hx hz hscope fun hk => absurd hk htry⟩
    · rintro ⟨b, t, h⟩
      obtain ⟨z, hz, hdeparts, hscope, -⟩ := h.exists_kid (hne j l)
      exact ⟨⟨z, hz, b, t, hdeparts⟩, hscope⟩

/-! ## Exceptions -/

/-- An exception that comes from `b` is not stopped by the handlers of a try statement:
it comes from a handler itself or from the finalizer, or no handler is meant for it. -/
def Evades (o : Outline) (r : RuleProvider) (type : ExcType) (b y : Site × Outline) : Prop :=
  ∀ body clauses, o.kids r y = body :: clauses → b ∈ o.subtree r body →
    ∀ c ∈ clauses, ∀ caught, c.2.kind = .catchClause caught → r.isSubtype type caught = false

/-- The exception raised at `b` leaves `x`. -/
structure Surfaces (o : Outline) (r : RuleProvider) (type : ExcType) (x b : Site × Outline) :
    Prop where
  mem : b ∈ o.subtree r x
  reachable : b.1.reachable = true
  raises : ∃ types, r.raised (Tree.ofOutline o) b.1.id = .ok types ∧ types.contains type = true
  passes : o.TriesOut r (fun y => o.Evades r type b y ∧ o.Finalizes r b y) x b

theorem contains_raisedBy_iff : (Flow.raisedBy (o.subject r) x.1.id).contains type = true ↔
    ∃ types, r.raised (Tree.ofOutline o) x.1.id = .ok types ∧ types.contains type = true := by
  have hraised : (o.subject r).rules.raised (o.subject r).tree x.1.id =
      r.raised (Tree.ofOutline o) x.1.id := rfl
  rw [Flow.raisedBy, hraised]
  cases r.raised (Tree.ofOutline o) x.1.id with
  | ok types => simp
  | error violation =>
    constructor
    · intro hempty
      cases hempty
    · rintro ⟨types, ⟨⟩, -⟩

theorem reachable_of_subtree (hb : b ∈ o.subtree r x) (h : b.1.reachable = true) :
    x.1.reachable = true := by
  induction hn : x.2.size using Nat.strongRecOn generalizing x with
  | _ n ih =>
    rcases mem_subtree_iff.1 hb with rfl | ⟨z, hz, hbz⟩
    · exact h
    · have hlt := lt_of_mem_offspring hz
      have hend := end_le_of_mem_offspring hz
      exact reachable_parent hz (ih z.2.size (by omega) hbz rfl)

section Try

variable {body : Site × Outline} {catches last : List (Site × Outline)}

theorem TryParts.mem_types_iff (h : TryParts o r x body catches last) {caught : ExcType} :
    caught ∈ TryParts.types catches ↔ ∃ c ∈ catches ++ last, c.2.kind = .catchClause caught := by
  have hcaught : ∀ {c : Site × Outline}, c.2.kind.caught? = some caught ↔
      c.2.kind = .catchClause caught := by
    intro c
    cases c.2.kind <;> simp [NodeKind.caught?]
  rw [TryParts.types, List.mem_filterMap]
  constructor
  · rintro ⟨c, hc, hk⟩
    exact ⟨c, List.mem_append_left _ hc, hcaught.1 hk⟩
  · rintro ⟨c, hc, hk⟩
    rcases List.mem_append.1 hc with hc | hc
    · exact ⟨c, hc, hcaught.2 hk⟩
    · have hfinally := (h.mem_last_iff (h.last_mem hc)).2 hc
      rw [hk] at hfinally
      cases hfinally

theorem TryParts.evades_iff (h : TryParts o r x body catches last) (hz : z ∈ o.kids r x)
    (hb : b ∈ o.subtree r z) : o.Evades r type b x ↔
      (z = body → ∀ caught ∈ TryParts.types catches, r.isSubtype type caught = false) := by
  constructor
  · rintro hevades rfl caught hcaught
    obtain ⟨c, hc, hk⟩ := h.mem_types_iff.1 hcaught
    exact hevades z _ h.kids hb c hc caught hk
  · intro hbody body' clauses hkids hb' c hc caught hk
    obtain ⟨rfl, rfl⟩ := List.cons.inj (h.kids.symm.trans hkids)
    exact hbody (kid_unique hz h.body_mem hb hb') caught (h.mem_types_iff.2 ⟨c, hc, hk⟩)

theorem TryParts.body_ne (h : TryParts o r x body catches last) (hz : z.2.kind.isClause = true) :
    z ≠ body := by
  rintro rfl
  rw [h.isClause] at hz
  cases hz

theorem TryParts.isClause_catch (h : TryParts o r x body catches last) (hz : z ∈ catches) :
    z.2.kind.isClause = true := by
  have hcatch := h.isCatch z hz
  cases hk : z.2.kind with
  | catchClause => rfl
  | _ =>
    rw [hk] at hcatch
    cases hcatch

theorem TryParts.uncaught_iff (h : TryParts o r x body catches last) :
    (o.uncaught r body (catches ++ last)).contains type = true ↔ ∃ z ∈ body :: catches,
      (z = body → ∀ caught ∈ TryParts.types catches, r.isSubtype type caught = false) ∧
      (o.part r z).flow.propagated.contains type = true := by
  rw [uncaught, PackedSet.contains_foldl_union, PackedSet.contains_retain, h.catches_eq, h.caught_eq,
    Bool.not_eq_true', List.any_eq_false]
  constructor
  · rintro (⟨hbody, huncaught⟩ | ⟨q, hq, hl⟩)
    · refine ⟨body, List.mem_cons_self, fun _ caught hcaught => ?_, hbody⟩
      exact Bool.eq_false_iff.2 (huncaught caught hcaught)
    · obtain ⟨c, hc, rfl⟩ := List.mem_map.1 hq
      exact ⟨c, List.mem_cons_of_mem _ hc, fun hbody =>
        absurd hbody (h.body_ne (h.isClause_catch hc)), hl⟩
  · rintro ⟨z, hz, huncaught, hl⟩
    rcases List.mem_cons.1 hz with rfl | hz
    · exact .inl ⟨hl, fun caught hcaught => Bool.eq_false_iff.1 (huncaught rfl caught hcaught)⟩
    · exact .inr ⟨o.part r z, List.mem_map.2 ⟨z, hz, rfl⟩, hl⟩

theorem TryParts.leaving_iff (h : TryParts o r x body catches last) :
    (o.leaving r body (catches ++ last)).contains type = true ↔ ∃ z ∈ o.kids r x,
      (z = body → ∀ caught ∈ TryParts.types catches, r.isSubtype type caught = false) ∧
      (∀ f ∈ last, z ≠ f → (o.part r f).flow.completes = true) ∧
      (o.part r z).flow.propagated.contains type = true := by
  rw [leaving, h.finalizer?]
  rcases h.last with rfl | ⟨f, rfl, hk⟩
  · have hkids : o.kids r x = body :: catches := by rw [h.kids, List.append_nil]
    rw [hkids]
    simpa using h.uncaught_iff
  · have hf := h.last_mem (f := f) List.mem_cons_self
    have hfbody : f ≠ body := h.body_ne (by rw [hk]; rfl)
    have hmem : ∀ z ∈ o.kids r x, z ≠ f → z ∈ body :: catches := by
      intro z hz hne
      rw [h.kids, List.mem_append] at hz
      exact hz.resolve_right fun hlast => hne (List.mem_singleton.1 hlast)
    simp only [List.head?_cons, Option.map_some, List.mem_singleton, forall_eq]
    cases hcompletes : (o.part r f).flow.completes with
    | false =>
      rw [if_neg Bool.false_ne_true]
      constructor
      · intro hl
        exact ⟨f, hf, fun hbody => absurd hbody hfbody, fun hne => absurd rfl hne, hl⟩
      · rintro ⟨z, hz, -, hlast, hl⟩
        by_cases hzf : z = f
        · rw [← hzf]
          exact hl
        · cases hlast hzf
    | true =>
      rw [if_pos rfl, PackedSet.contains_union, h.uncaught_iff]
      constructor
      · rintro (⟨z, hz, huncaught, hl⟩ | hl)
        · exact ⟨z, h.kids ▸ List.mem_append_left _ hz, huncaught, fun _ => rfl, hl⟩
        · exact ⟨f, hf, fun hbody => absurd hbody hfbody, fun _ => rfl, hl⟩
      · rintro ⟨z, hz, huncaught, -, hl⟩
        by_cases hzf : z = f
        · rw [← hzf]
          exact .inr hl
        · exact .inl ⟨z, hmem z hz hzf, huncaught, hl⟩

end Try

/-- What a child raises leaves a node unless a try statement keeps it. -/
theorem surfaces_iff (hx : x ∈ o.table r) : (∃ b, o.Surfaces r type x b) ↔
    x.1.reachable = true ∧ ((Flow.raisedBy (o.subject r) x.1.id).contains type = true ∨
      ∃ z ∈ o.kids r x, ∃ b, o.Surfaces r type z b ∧
        (x.2.kind = .tryCatch → o.Evades r type b x ∧ o.Finalizes r b x)) := by
  constructor
  · rintro ⟨b, h⟩
    refine ⟨reachable_of_subtree h.mem h.reachable, ?_⟩
    rcases mem_subtree_iff.1 h.mem with rfl | ⟨z, hz, hbz⟩
    · exact .inl (contains_raisedBy_iff.2 h.raises)
    · obtain ⟨hinner, hself⟩ := (triesOut_kid hz hbz).1 h.passes
      exact .inr ⟨z, hz, b, ⟨hbz, h.reachable, h.raises, hinner⟩, hself⟩
  · rintro ⟨hreach, hown | ⟨z, hz, b, h, hself⟩⟩
    · exact ⟨x, self_mem_subtree x, hreach, contains_raisedBy_iff.1 hown, triesOut_self _ hx⟩
    · exact ⟨b, mem_subtree_of_kid hz h.mem, h.reachable, h.raises,
        (triesOut_kid hz h.mem).2 ⟨h.passes, hself⟩⟩

/-- **The exceptions that leave a node** are those raised inside that neither a
handler nor a finalizer stops. -/
theorem propagated_iff (hs : o.Shaped) (hx : x ∈ o.table r) :
    (o.part r x).flow.propagated.contains type = true ↔ ∃ b, o.Surfaces r type x b := by
  induction hn : x.2.size using Nat.strongRecOn generalizing x with
  | _ n ih =>
    have hkids : ∀ z ∈ o.kids r x, (o.part r z).flow.propagated.contains type = true ↔
        ∃ b, o.Surfaces r type z b := by
      intro z hz
      have hlt := lt_of_mem_offspring hz
      have hend := end_le_of_mem_offspring hz
      exact ih z.2.size (by omega) (mem_table_of_mem_offspring hx hz) rfl
    rw [surfaces_iff hx]
    cases hreach : x.1.reachable with
    | false =>
      rw [propagated_of_dead hreach]
      constructor
      · exact nofun
      · rintro ⟨⟨⟩, -⟩
    | true =>
      rw [eq_self, true_and]
      by_cases hk : x.2.kind = .tryCatch
      · obtain ⟨body, catches, last, hparts⟩ := exists_tryParts hs hx hk
        have hall : o.kids r x = body :: (catches ++ last) := hparts.kids
        rw [propagated_try hk hall hreach, PackedSet.contains_union, hparts.leaving_iff]
        apply or_congr_right
        constructor
        · rintro ⟨z, hz, huncaught, hlast, hl⟩
          obtain ⟨b, hb⟩ := (hkids z hz).1 hl
          exact ⟨z, hz, b, hb, fun _ => ⟨(hparts.evades_iff hz hb.mem).2 huncaught,
            (hparts.finalizes_iff hz hb.mem).2 hlast⟩⟩
        · rintro ⟨z, hz, b, hb, hself⟩
          exact ⟨z, hz, (hparts.evades_iff hz hb.mem).1 (hself hk).1,
            (hparts.finalizes_iff hz hb.mem).1 (hself hk).2, (hkids z hz).2 ⟨b, hb⟩⟩
      · rw [propagated_part hk hreach, PackedSet.contains_foldl_union]
        apply or_congr_right
        constructor
        · rintro ⟨q, hq, hl⟩
          obtain ⟨z, hz, rfl⟩ := List.mem_map.1 hq
          obtain ⟨b, hb⟩ := (hkids z hz).1 hl
          exact ⟨z, hz, b, hb, fun htry => absurd htry hk⟩
        · rintro ⟨z, hz, b, hb, -⟩
          exact ⟨o.part r z, List.mem_map.2 ⟨z, hz, rfl⟩, (hkids z hz).2 ⟨b, hb⟩⟩

end Outline

end Attribution
