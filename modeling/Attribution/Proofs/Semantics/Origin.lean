import Attribution.Proofs.Analysis.Session
import Attribution.Proofs.Semantics.Departure
/-!
# Where jumps and exceptions come from

What the analysis finds to leave a node of a program, traced back to the nodes it
comes from: the reachable jumps inside that lead out of the node
(`escapes_iff_jumpsFrom`), and the exceptions raised inside that nothing stops
(`propagated_iff_raisesFrom`).
-/

namespace Attribution

namespace Tree

theorem le_of_mem_lineage {t : Tree} {id m : NodeId} (h : m ∈ t.lineage id) : m ≤ id := by
  induction id using Nat.strongRecOn with
  | _ id ih =>
    rw [lineage] at h
    split at h
    · rename_i p hp
      split at h
      · rename_i hlt
        rcases List.mem_cons.1 h with rfl | h
        · exact Nat.le_refl _
        · exact Nat.le_of_lt (Nat.lt_of_le_of_lt (ih p hlt h) hlt)
      · exact Nat.le_of_eq (List.mem_singleton.1 h)
    · exact Nat.le_of_eq (List.mem_singleton.1 h)

theorem lt_size_of_mem_lineage {t : Tree} {id m : NodeId} (h : m ∈ t.lineage id)
    (hm : m < t.size) : id < t.size := by
  by_contra hid
  have hnone : t.node? id = none := Array.getElem?_eq_none (Nat.le_of_not_lt hid)
  have hparent : t.parent? id = none := by
    rw [parent?, hnone]
    rfl
  rw [lineage, hparent] at h
  rw [List.mem_singleton.1 h] at hm
  exact hid hm

end Tree

namespace Outline

variable {o : Outline} {r : RuleProvider} {x : Site × Outline} {j : Jump} {l : JumpLabel}
  {t : NodeId}

theorem scopes_mem_lineage (hx : x ∈ o.table r) :
    ∀ scope ∈ x.1.scopes, scope.id ∈ (Tree.ofOutline o).lineage x.1.id := by
  induction hid : x.1.id using Nat.strongRecOn generalizing x with
  | _ id ih =>
    subst hid
    rcases eq_root_or_mem_offspring o hx with rfl | ⟨y, hy, hmem⟩
    · intro scope hscope
      cases hscope
    · intro scope hscope
      rw [lineage_of_mem_kids hy hmem]
      apply List.mem_cons_of_mem
      cases hk : y.2.kind.isScope with
      | false =>
        rw [scopes_kid_of_plain hk hmem] at hscope
        exact ih y.1.id (lt_of_mem_offspring hmem) hy rfl scope hscope
      | true =>
        rw [scopes_kid_of_scope hk hmem] at hscope
        rcases List.mem_cons.1 hscope with rfl | hscope
        · exact (mem_lineage_iff hy hy).2 (self_mem_subtree y)
        · exact ih y.1.id (lt_of_mem_offspring hmem) hy rfl scope hscope

theorem Target.mem_lineage (h : Target j x.1.scopes l t) (hx : x ∈ o.table r) :
    t ∈ (Tree.ofOutline o).lineage x.1.id := by
  obtain ⟨scope, hmem, rfl⟩ := h.exists_mem
  exact scopes_mem_lineage hx scope hmem

end Outline

namespace Stmt

variable (program : Stmt) (rules : RuleProvider)

/-- Nothing that comes from node `m` and leaves node `n` is held up on its way: where a
try statement has a finalizer around none of it, the finalizer is found to complete. -/
def Unhindered (n m : NodeId) : Prop :=
  ∀ y f, (Tree.ofProgram program).kind? y = some .tryCatch →
    n ∈ (Tree.ofProgram program).lineage y → y ∈ (Tree.ofProgram program).lineage m → y ≠ m →
    (Tree.ofProgram program).parent? f = some y →
    (Tree.ofProgram program).kind? f = some .finallyClause →
    f ∉ (Tree.ofProgram program).lineage m → program.Finds rules .completes f true

/-- A jump that is found to be reachable stands in node `n` and leads out of it. -/
def JumpsFrom (j : Jump) (l : JumpLabel) (n : NodeId) : Prop :=
  ∃ b t, (Tree.ofProgram program).kind? b = some (Outline.jumpKind j l) ∧
    n ∈ (Tree.ofProgram program).lineage b ∧ program.Finds rules .reachable b true ∧
    (Tree.ofProgram program).jump? b = some (.ok t) ∧
    t ∈ (Tree.ofProgram program).lineage n ∧ t ≠ n ∧ program.Unhindered rules n b

/-- A node that is found to be reachable stands in node `n` and raises the exception,
which none of the handlers around it stops. -/
def RaisesFrom (type : ExcType) (n : NodeId) : Prop :=
  ∃ m raised, n ∈ (Tree.ofProgram program).lineage m ∧ program.Finds rules .reachable m true ∧
    rules.raised (.ofProgram program) m = .ok raised ∧ raised.contains type = true ∧
    (∀ y body clauses, (Tree.ofProgram program).Has y .tryCatch (body :: clauses) →
      n ∈ (Tree.ofProgram program).lineage y → y ∈ (Tree.ofProgram program).lineage m → y ≠ m →
      body ∈ (Tree.ofProgram program).lineage m →
      ∀ c ∈ clauses, ∀ caught, (Tree.ofProgram program).kind? c = some (.catchClause caught) →
        rules.isSubtype type caught = false) ∧
    program.Unhindered rules n m

section Sites

variable {program rules} {x y b : Site × Outline} {j : Jump} {l : JumpLabel} {type : ExcType}

theorem finds_of_mem (hx : x ∈ (program.outline 0).1.table rules) {a : Attribute} {v : a.Value} :
    program.Finds rules a x.1.id v ↔ (program.outline 0).1.valueAt rules x a = v := by
  rw [finds_iff (Tree.id_lt_size hx), Outline.reference_of_mem hx]

theorem exists_site_of_kind? (rules : RuleProvider) {id : NodeId} {kind : NodeKind}
    (h : (Tree.ofProgram program).kind? id = some kind) :
    ∃ x ∈ (program.outline 0).1.table rules, x.1.id = id ∧ x.2.kind = kind := by
  obtain ⟨n, hn, rfl⟩ := Option.map_eq_some_iff.1 h
  obtain ⟨x, hx, rfl, rfl⟩ := Tree.exists_site_of_node? _ _ hn
  exact ⟨x, hx, rfl, rfl⟩

theorem kind?_of_mem (hx : x ∈ (program.outline 0).1.table rules) :
    (Tree.ofProgram program).kind? x.1.id = some x.2.kind :=
  Outline.kind?_of_mem hx

theorem unhindered_iff (hx : x ∈ (program.outline 0).1.table rules)
    (hb : b ∈ (program.outline 0).1.table rules) :
    program.Unhindered rules x.1.id b.1.id ↔ (program.outline 0).1.Passes rules x b := by
  constructor
  · intro h y hy hk hne hby f hf hkf hbf
    have hyt := Outline.mem_table_of_mem_subtree hx hy
    have hft := Outline.mem_table_of_mem_offspring hyt hf
    refine (finds_of_mem hft).1 (h y.1.id f.1.id ?_ ?_ ?_ ?_ ?_ ?_ ?_)
    · rw [kind?_of_mem hyt, hk]
    · exact (Outline.mem_lineage_iff hx hyt).2 hy
    · exact (Outline.mem_lineage_iff hyt hb).2 hby
    · exact fun hid => hne (Outline.eq_of_id_eq hyt hb hid)
    · exact (Outline.parent?_eq_iff hyt hft).2 hf
    · rw [kind?_of_mem hft, hkf]
    · exact fun hmem => hbf ((Outline.mem_lineage_iff hft hb).1 hmem)
  · intro h yid fid hky hxy hyb hne hparent hkf hfb
    obtain ⟨y, hy, rfl, hk⟩ := exists_site_of_kind? rules hky
    obtain ⟨f, hf, rfl, hkind⟩ := exists_site_of_kind? rules hkf
    refine (finds_of_mem hf).2 (h y ((Outline.mem_lineage_iff hx hy).1 hxy) hk ?_
      ((Outline.mem_lineage_iff hy hb).1 hyb) f ((Outline.parent?_eq_iff hy hf).1 hparent) hkind ?_)
    · rintro rfl
      exact hne rfl
    · exact fun hmem => hfb ((Outline.mem_lineage_iff hf hb).2 hmem)

theorem jumpsFrom_iff (hx : x ∈ (program.outline 0).1.table rules) :
    program.JumpsFrom rules j l x.1.id ↔ ∃ b t, (program.outline 0).1.Departs rules j l x b t := by
  have hjump : ∀ {b}, b ∈ (program.outline 0).1.table rules →
      (Tree.ofProgram program).jump? b.1.id = resolveJump b.1.scopes b.2.kind :=
    fun hb => Tree.jump?_of_mem hb
  constructor
  · rintro ⟨bid, t, hkb, hxb, hreach, htarget, hxt, hne, hpasses⟩
    obtain ⟨b, hb, rfl, hk⟩ := exists_site_of_kind? rules hkb
    rw [hjump hb, hk] at htarget
    exact ⟨b, t, (Outline.mem_lineage_iff hx hb).1 hxb, hk, (finds_of_mem hb).1 hreach, htarget,
      Nat.lt_of_le_of_ne (Tree.le_of_mem_lineage hxt) hne, (unhindered_iff hx hb).1 hpasses⟩
  · rintro ⟨b, t, h⟩
    have hb := Outline.mem_table_of_mem_subtree hx h.mem
    refine ⟨b.1.id, t, ?_, (Outline.mem_lineage_iff hx hb).2 h.mem, (finds_of_mem hb).2 h.reachable,
      ?_, (Outline.target_subtree h.mem h.target h.leaves).mem_lineage hx, Nat.ne_of_lt h.leaves,
      (unhindered_iff hx hb).2 h.passes⟩
    · rw [kind?_of_mem hb, h.kind]
    · rw [hjump hb, h.kind]
      exact h.target

theorem has_iff (hy : y ∈ (program.outline 0).1.table rules) {kind : NodeKind}
    {children : List NodeId} : (Tree.ofProgram program).Has y.1.id kind children ↔
      y.2.kind = kind ∧ ((program.outline 0).1.kids rules y).map (fun z => z.1.id) = children := by
  constructor
  · exact Outline.has_of_mem hy
  · rintro ⟨hk, hkids⟩
    refine ⟨Outline.nodeAt y, Outline.node?_subject hy, hk, ?_⟩
    rw [← hkids]
    exact Outline.children_nodeAt _ _ y

/-- An exception from the body of the try statement `y` is of a type that none of its
handlers catches. -/
theorem evades_iff (hy : y ∈ (program.outline 0).1.table rules)
    (hb : b ∈ (program.outline 0).1.table rules) (hk : y.2.kind = .tryCatch) :
    (program.outline 0).1.Evades rules type b y ↔ ∀ body clauses,
      (Tree.ofProgram program).Has y.1.id .tryCatch (body :: clauses) →
      body ∈ (Tree.ofProgram program).lineage b.1.id → ∀ c ∈ clauses, ∀ caught,
        (Tree.ofProgram program).kind? c = some (.catchClause caught) →
        rules.isSubtype type caught = false := by
  have hkid := fun {z} (hz : z ∈ (program.outline 0).1.kids rules y) =>
    Outline.mem_table_of_mem_offspring hy hz
  constructor
  · intro h bodyId clauseIds hhas hbody cid hc caught hkc
    obtain ⟨body, clauses, hkids, rfl, rfl⟩ := List.map_eq_cons_iff.1 ((has_iff hy).1 hhas).2
    obtain ⟨c, hmem, rfl⟩ := List.mem_map.1 hc
    have hbt := hkid (hkids ▸ List.mem_cons_self)
    rw [kind?_of_mem (hkid (hkids ▸ List.mem_cons_of_mem _ hmem))] at hkc
    exact h body clauses hkids ((Outline.mem_lineage_iff hbt hb).1 hbody) c hmem caught
      (Option.some.inj hkc)
  · intro h body clauses hkids hbody c hc caught hkc
    have hbt := hkid (hkids ▸ List.mem_cons_self)
    refine h body.1.id (clauses.map fun z => z.1.id) ((has_iff hy).2 ⟨hk, by rw [hkids]; rfl⟩)
      ((Outline.mem_lineage_iff hbt hb).2 hbody) c.1.id (List.mem_map.2 ⟨c, hc, rfl⟩) caught ?_
    rw [kind?_of_mem (hkid (hkids ▸ List.mem_cons_of_mem _ hc)), hkc]

theorem raisesFrom_iff (hx : x ∈ (program.outline 0).1.table rules) :
    program.RaisesFrom rules type x.1.id ↔ ∃ b, (program.outline 0).1.Surfaces rules type x b := by
  constructor
  · rintro ⟨m, raised, hxm, hreach, hraised, htype, hevades, hpasses⟩
    obtain ⟨b, hb, rfl⟩ := Tree.exists_site _ _
      (Tree.lt_size_of_mem_lineage hxm (Tree.id_lt_size hx))
    refine ⟨b, (Outline.mem_lineage_iff hx hb).1 hxm, (finds_of_mem hb).1 hreach,
      ⟨raised, hraised, htype⟩, fun y hy hk hne hby => ⟨?_, ?_⟩⟩
    · have hyt := Outline.mem_table_of_mem_subtree hx hy
      refine (evades_iff hyt hb hk).2 fun body clauses hhas => ?_
      exact hevades y.1.id body clauses hhas ((Outline.mem_lineage_iff hx hyt).2 hy)
        ((Outline.mem_lineage_iff hyt hb).2 hby) fun hid => hne (Outline.eq_of_id_eq hyt hb hid)
    · exact (unhindered_iff hx hb).1 hpasses y hy hk hne hby
  · rintro ⟨b, h⟩
    have hb := Outline.mem_table_of_mem_subtree hx h.mem
    obtain ⟨raised, hraised, htype⟩ := h.raises
    refine ⟨b.1.id, raised, (Outline.mem_lineage_iff hx hb).2 h.mem, (finds_of_mem hb).2 h.reachable,
      hraised, htype, ?_, ?_⟩
    · intro yid body clauses hhas hxy hyb hne
      have hky : (Tree.ofProgram program).kind? yid = some .tryCatch := by
        obtain ⟨n, hn, hkind, -⟩ := hhas
        rw [Tree.kind?, hn, ← hkind]
        rfl
      obtain ⟨y, hy, rfl, hk⟩ := exists_site_of_kind? rules hky
      refine (evades_iff hy hb hk).1 (h.passes y ((Outline.mem_lineage_iff hx hy).1 hxy) hk ?_
        ((Outline.mem_lineage_iff hy hb).1 hyb)).1 body clauses hhas
      rintro rfl
      exact hne rfl
    · exact (unhindered_iff hx hb).2 fun y hy hk hne hby => (h.passes y hy hk hne hby).2

theorem not_jumpsFrom_root (j : Jump) (l : JumpLabel) :
    ¬program.JumpsFrom rules j l (Tree.ofProgram program).root := by
  rintro ⟨b, t, -, -, -, -, hroot, hne, -⟩
  exact hne (Nat.le_zero.1 (Tree.le_of_mem_lineage hroot))

end Sites

theorem label_iff_jumpsFrom (program : Stmt) (rules : RuleProvider) {x : Site × Outline}
    (hx : x ∈ (program.outline 0).1.table rules) (j : Jump) (l : JumpLabel) :
    (Outline.labelsOf j ((program.outline 0).1.part rules x).flow).contains l = true ↔
      program.JumpsFrom rules j l x.1.id := by
  rw [jumpsFrom_iff hx, Outline.label_iff (program.shaped_outline 0) hx]

theorem exists_breaks (program : Stmt) (rules : RuleProvider) {n : NodeId}
    (hn : n < (Tree.ofProgram program).size) :
    ∃ labels, program.Finds rules .breaks n labels ∧
      ∀ l, PackedSet.contains labels l = true ↔ program.JumpsFrom rules .break l n := by
  obtain ⟨x, hx, rfl⟩ := Tree.exists_site _ _ hn
  exact ⟨_, (finds_of_mem hx).2 rfl, label_iff_jumpsFrom program rules hx .break⟩

theorem exists_continues (program : Stmt) (rules : RuleProvider) {n : NodeId}
    (hn : n < (Tree.ofProgram program).size) :
    ∃ labels, program.Finds rules .continues n labels ∧
      ∀ l, PackedSet.contains labels l = true ↔ program.JumpsFrom rules .continue l n := by
  obtain ⟨x, hx, rfl⟩ := Tree.exists_site _ _ hn
  exact ⟨_, (finds_of_mem hx).2 rfl, label_iff_jumpsFrom program rules hx .continue⟩

/-- **Jumps that leave a node are the reachable ones that lead out of it.** In
particular, none leaves the program. -/
theorem escapes_iff_jumpsFrom (program : Stmt) (rules : RuleProvider) {n : NodeId}
    (hn : n < (Tree.ofProgram program).size) :
    (∃ labels, program.Finds rules .breaks n labels ∧
      ∀ l, PackedSet.contains labels l = true ↔ program.JumpsFrom rules .break l n) ∧
    (∃ labels, program.Finds rules .continues n labels ∧
      ∀ l, PackedSet.contains labels l = true ↔ program.JumpsFrom rules .continue l n) ∧
    (∃ labels, program.Finds rules .breaks (Tree.ofProgram program).root labels ∧
      PackedSet.toList labels = []) ∧
    ∃ labels, program.Finds rules .continues (Tree.ofProgram program).root labels ∧
      PackedSet.toList labels = [] := by
  have hroot : (Tree.ofProgram program).root < (Tree.ofProgram program).size :=
    Nat.lt_of_le_of_lt (Nat.zero_le n) hn
  have hempty : ∀ {j : Jump} {labels : LabelSet}, (∀ l, labels.contains l = true ↔
      program.JumpsFrom rules j l (Tree.ofProgram program).root) → labels.toList = [] := by
    intro j labels h
    rw [List.eq_nil_iff_forall_not_mem]
    intro l hl
    exact not_jumpsFrom_root j l ((h l).1 (PackedSet.contains_iff.2 hl))
  obtain ⟨breaks, hbreaks, hb⟩ := exists_breaks program rules hroot
  obtain ⟨continues, hcontinues, hc⟩ := exists_continues program rules hroot
  exact ⟨exists_breaks program rules hn, exists_continues program rules hn,
    ⟨breaks, hbreaks, hempty hb⟩, ⟨continues, hcontinues, hempty hc⟩⟩

def heldUp : Stmt :=
  .labeled "out" (.tryCatch (.breakTo (some "out")) [] (some (.whileLoop (.bool true) (.block []))))

/-- The jump leaves the body of the try statement, but not the statement. -/
theorem escapes_iff_jumpsFrom_heldUp :
    (2 < (Tree.ofProgram heldUp).size ∧ ∃ labels, heldUp.Finds {} .breaks 2 labels ∧
      PackedSet.contains labels (.named "out") = true) ∧
    1 < (Tree.ofProgram heldUp).size ∧ ∃ labels, heldUp.Finds {} .breaks 1 labels ∧
      PackedSet.contains labels (.named "out") ≠ true := by
  have hlineage : (Tree.ofProgram heldUp).lineage 2 = [2, 1, 0] := by decide +kernel
  obtain ⟨⟨body, hbody, hfrom⟩, -⟩ := escapes_iff_jumpsFrom heldUp {} (show 2 < 7 by decide)
  obtain ⟨⟨whole, hwhole, hfromWhole⟩, -⟩ := escapes_iff_jumpsFrom heldUp {} (show 1 < 7 by decide)
  refine ⟨⟨by decide, body, hbody, (hfrom _).2 ?_⟩, by decide, whole, hwhole, fun hout => ?_⟩
  · refine ⟨2, 0, rfl, ?_, (finds_iff (by decide)).2 rfl, rfl, ?_, by decide, ?_⟩
    · rw [hlineage]
      exact List.mem_cons_self
    · rw [hlineage]
      decide
    · intro y f _ hy hy' hne
      exact absurd (Nat.le_antisymm (Tree.le_of_mem_lineage hy') (Tree.le_of_mem_lineage hy)) hne
  · obtain ⟨b, t, hk, -, -, -, -, -, hpasses⟩ := (hfromWhole _).1 hout
    obtain ⟨x, hx, rfl, -⟩ := exists_site_of_kind? {} hk
    have hjump : ∀ id < 7, (Tree.ofProgram heldUp).kind? id = some (.breakTo (some "out")) →
        id = 2 := by decide
    have hid : x.1.id = 2 := hjump _ (Tree.id_lt_size hx) hk
    rw [hid] at hpasses
    have hself : 1 ∈ (Tree.ofProgram heldUp).lineage 1 := by decide +kernel
    have hends := hpasses 1 3 rfl hself (by rw [hlineage]; decide) (by decide) rfl rfl
      (by rw [hlineage]; decide)
    have hvalue := (finds_iff (by decide)).1 hends
    cases hvalue

/-- **Exceptions that leave a node are those raised inside that nothing stops.** -/
theorem propagated_iff_raisesFrom (program : Stmt) (rules : RuleProvider) {n : NodeId}
    (hn : n < (Tree.ofProgram program).size) :
    ∃ types, program.Finds rules .propagated n types ∧
      ∀ type, PackedSet.contains types type = true ↔ program.RaisesFrom rules type n := by
  obtain ⟨x, hx, rfl⟩ := Tree.exists_site _ _ hn
  refine ⟨_, (finds_of_mem hx).2 rfl, fun type => ?_⟩
  rw [raisesFrom_iff hx, ← Outline.propagated_iff (program.shaped_outline 0) hx]
  rfl

def halfHandled : Stmt :=
  .tryCatch (.ifThen (.call "choose" []) (.throws ⟨"A"⟩) (some (.throws ⟨"B"⟩)))
    [.mk ⟨"B"⟩ (.block [])] (some (.block []))

/-- The exception with a handler stays inside, the other one leaves. -/
theorem propagated_iff_raisesFrom_halfHandled :
    0 < (Tree.ofProgram halfHandled).size ∧ ∃ types, halfHandled.Finds {} .propagated 0 types ∧
      PackedSet.contains types ⟨"A"⟩ = true ∧ PackedSet.contains types ⟨"B"⟩ ≠ true := by
  have htry : ∀ id < 9, (Tree.ofProgram halfHandled).kind? id = some .tryCatch → id = 0 := by decide
  have hcaught : ∀ c ∈ [5, 7], ∀ caught,
      (Tree.ofProgram halfHandled).kind? c = some (.catchClause caught) → caught = ⟨"B"⟩ := by
    simp only [List.mem_cons, List.not_mem_nil, or_false, forall_eq_or_imp, forall_eq]
    exact ⟨fun _ h => (NodeKind.catchClause.inj (Option.some.inj h)).symm, nofun⟩
  obtain ⟨types, htypes, hfrom⟩ := propagated_iff_raisesFrom halfHandled {} (show 0 < 9 by decide)
  refine ⟨by decide, types, htypes, (hfrom _).2 ?_, fun hb => ?_⟩
  · refine ⟨3, .singleton ⟨"A"⟩, by decide +kernel, (finds_iff (by decide)).2 rfl, rfl, by decide,
      ?_, ?_⟩
    · rintro y body clauses ⟨n, hn, hk, hchildren⟩ _ _ _ _ c hc caught hkc
      have hky : (Tree.ofProgram halfHandled).kind? y = some .tryCatch := by
        rw [Tree.kind?, hn, ← hk]
        rfl
      obtain ⟨x, hx, rfl, -⟩ := exists_site_of_kind? {} hky
      rw [htry _ (Tree.id_lt_size hx) hky] at hn
      cases hn
      cases hchildren
      rw [hcaught c hc caught hkc]
      decide
    · intro y f hky _ _ _ hparent hkf _
      have hlast : ∀ id < 9, (Tree.ofProgram halfHandled).kind? id = some .finallyClause → id = 7 := by
        decide
      obtain ⟨x, hx, rfl, -⟩ := exists_site_of_kind? {} hkf
      rw [hlast _ (Tree.id_lt_size hx) hkf]
      exact (finds_iff (by decide)).2 rfl
  · obtain ⟨m, raised, hm, -, hraised, htype, hevades, -⟩ := (hfrom _).1 hb
    have hthrow : ∀ id < 9, (Flow.raisedBy (halfHandled.subject {}) id).contains ⟨"B"⟩ = true →
        id = 4 := by decide
    have hid : m = 4 := by
      refine hthrow m (Tree.lt_size_of_mem_lineage hm (by decide)) ?_
      rw [Flow.raisedBy, show (halfHandled.subject {}).rules.raised (halfHandled.subject {}).tree m =
        .ok raised from hraised]
      exact htype
    subst hid
    have hself : 0 ∈ (Tree.ofProgram halfHandled).lineage 0 := by decide +kernel
    have hfalse := hevades 0 1 [5, 7] ⟨_, rfl, rfl, rfl⟩ hself hm (by decide) (by decide +kernel) 5
      (by decide) ⟨"B"⟩ rfl
    revert hfalse
    decide

end Stmt

end Attribution
