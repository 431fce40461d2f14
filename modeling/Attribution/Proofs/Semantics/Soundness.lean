import Attribution.Proofs.Analysis.Session
import Attribution.Proofs.Semantics.Statement
/-!
# Flow and exceptions account for every execution

A node that control comes to is reachable, and its attributes allow for however its
execution ends. The second part is an induction over executions, with what it says
of lists of statements and of handlers put next to what it says of nodes (`Sound`);
the first part is an induction over the way from the root to the node.
-/

namespace Attribution

namespace Outline

/-- The attributes allow for the outcome of a task that control comes to. -/
def Sound (o : Outline) (r : Rules) : Task → Outcome → Prop
  | .node id, out => ∀ x ∈ o.table r, x.1.id = id → x.1.reachable = true → o.Allows r x out
  | .all ids, out => ∀ zs : List (Site × Outline), (∀ z ∈ zs, z ∈ o.table r) →
    (zs.map fun z => z.1.id) = ids → Chained o r True zs → o.AllowsAll r zs out
  | .handled body clauses, out => ∀ (b : Site × Outline) (cs : List (Site × Outline)),
    (∀ z ∈ b :: cs, z ∈ o.table r ∧ z.1.reachable = true) → b.1.id = body →
    (cs.map fun z => z.1.id) = clauses → o.AllowsHandled r b cs out

variable {o : Outline} {r : Rules} {x y z : Site × Outline} {out : Outcome} {type : ExcType}
  {id c d : NodeId} {rest : List NodeId} {kind : NodeKind}

theorem mem_table_kids (hx : x ∈ o.table r) : ∀ z ∈ o.kids r x, z ∈ o.table r :=
  fun _ hz => mem_table_of_mem_offspring hx hz

/-! ## Statements one after the other -/

theorem sound_next (hc : o.Sound r (.node c) .normal) (hrest : o.Sound r (.all rest) out) :
    o.Sound r (.all (c :: rest)) out := by
  intro zs hmem hids hchain
  obtain ⟨z, tail, rfl, hid, htail⟩ := List.map_eq_cons_iff.1 hids
  obtain ⟨hz, hmem⟩ := List.forall_mem_cons.1 hmem
  have hcompletes : (o.part r z).flow.completes = true := hc z hz hid (hchain.1 trivial)
  exact allowsAll_cons hcompletes (hrest tail hmem htail (hchain.2.mono fun _ => hcompletes))

theorem sound_stop (hc : o.Sound r (.node c) out) (ho : out ≠ .normal) :
    o.Sound r (.all (c :: rest)) out := by
  intro zs hmem hids hchain
  obtain ⟨z, tail, rfl, hid, -⟩ := List.map_eq_cons_iff.1 hids
  rw [allowsAll_iff_of_ne ho]
  exact ⟨z, List.mem_cons_self, hc z (hmem z List.mem_cons_self) hid (hchain.1 trivial)⟩

theorem chained_straight (hk : x.2.kind.isStraight = true) (hreach : x.1.reachable = true) :
    Chained o r True (o.kids r x) :=
  chained_of_reachable fun _ hz => reachable_straight hk hreach hz

theorem sound_straight (hn : (o.subject r).tree.Has id kind rest) (hk : kind.isStraight = true) :
    o.Sound r (.node id) kind.result := by
  rintro x hx rfl hreach
  obtain ⟨rfl, -⟩ := has_of_mem hx hn
  by_cases hreturns : x.2.kind = .returns
  · rw [hreturns]
    trivial
  · have hresult : x.2.kind.result = .normal := by
      cases hkind : x.2.kind with
      | returns => exact absurd hkind hreturns
      | _ => rfl
    rw [hresult]
    exact completes_straight hk hreturns hreach

theorem sound_straightRaise (hn : (o.subject r).tree.Has id kind rest)
    (hk : kind.isStraight = true) (h : o.Sound r (.all rest) (.raised type)) :
    o.Sound r (.node id) (.raised type) := by
  rintro x hx rfl hreach
  obtain ⟨rfl, hids⟩ := has_of_mem hx hn
  obtain ⟨z, hz, hallows⟩ := h _ (mem_table_kids hx) hids (chained_straight hk hreach)
  refine raised_of_kid ?_ hreach hz hallows
  intro hkind
  rw [hkind] at hk
  cases hk

theorem sound_body (hn : (o.subject r).tree.Has id kind rest) (hk : kind.isBody = true)
    (h : o.Sound r (.all rest) out) : o.Sound r (.node id) out := by
  rintro x hx rfl hreach
  obtain ⟨rfl, hids⟩ := has_of_mem hx hn
  exact allows_of_body hk hreach (h _ (mem_table_kids hx) hids (chained_body hk hreach))

theorem sound_callRaise {callee : String} {types : TypeSet}
    (hn : (o.subject r).tree.Has id (.call callee) rest)
    (hraised : r.raised (o.subject r).tree id = .ok types) (htype : types.contains type = true) :
    o.Sound r (.node id) (.raised type) := by
  rintro x hx rfl hreach
  obtain ⟨hk, -⟩ := has_of_mem hx hn
  refine raised_of_raises ?_ hreach hraised htype
  rw [hk]
  exact nofun

/-! ## Branches and loops -/

theorem sound_testRaise (hn : (o.subject r).tree.Has id kind (c :: rest))
    (hk : kind.isSelective = true) (h : o.Sound r (.node c) (.raised type)) :
    o.Sound r (.node id) (.raised type) := by
  rintro x hx rfl hreach
  obtain ⟨rfl, hids⟩ := has_of_mem hx hn
  obtain ⟨y, zs, hkids, rfl, -⟩ := List.map_eq_cons_iff.1 hids
  have hy : y ∈ o.kids r x := hkids ▸ List.mem_cons_self
  have hallows := h y (mem_table_kids hx y hy) rfl ((reachable_first hkids).trans hreach)
  refine raised_of_kid ?_ hreach hy hallows
  intro hkind
  rw [hkind] at hk
  cases hk

theorem sound_branch {branch : NodeId} (hn : (o.subject r).tree.Has id .ifThen (c :: rest))
    (hmem : branch ∈ rest) (h : o.Sound r (.node branch) out) : o.Sound r (.node id) out := by
  rintro x hx rfl hreach
  obtain ⟨hk, hids⟩ := has_of_mem hx hn
  obtain ⟨y, zs, hkids, -, rfl⟩ := List.map_eq_cons_iff.1 hids
  obtain ⟨z, hz, rfl⟩ := List.mem_map.1 hmem
  have hkid : z ∈ o.kids r x := hkids ▸ List.mem_cons_of_mem y hz
  have hlive := (reachable_kid (by rw [hk]; rfl) (by rw [hk]; exact nofun) hkid).trans hreach
  exact allows_of_branch hk hreach hkids hz (h z (mem_table_kids hx z hkid) rfl hlive)

theorem sound_branchSkip (hn : (o.subject r).tree.Has id .ifThen [c, d]) :
    o.Sound r (.node id) .normal := by
  rintro x hx rfl hreach
  obtain ⟨hk, hids⟩ := has_of_mem hx hn
  obtain ⟨y, z, hkids, -, -⟩ := exists_pair hids
  change (o.part r x).flow.completes = true
  rw [completes_part, hk, hkids]
  exact hreach

theorem sound_doRaise (hn : (o.subject r).tree.Has id .doWhile [c, d])
    (h : o.Sound r (.node d) (.raised type)) : o.Sound r (.node id) (.raised type) := by
  rintro x hx rfl hreach
  obtain ⟨hk, hids⟩ := has_of_mem hx hn
  obtain ⟨z, y, hkids, -, rfl⟩ := exists_pair hids
  have hy : y ∈ o.kids r x := hkids ▸ List.mem_cons_of_mem z List.mem_cons_self
  have hlive := (reachable_kid (by rw [hk]; rfl) (by rw [hk]; exact nofun) hy).trans hreach
  exact raised_of_kid (by rw [hk]; exact nofun) hreach hy (h y (mem_table_kids hx y hy) rfl hlive)

theorem sound_doLeave (hn : (o.subject r).tree.Has id .doWhile [c, d])
    (h : o.Sound r (.node c) out) (ho : ¬(o.subject r).Repeats id out) :
    o.Sound r (.node id) (out.beyond id) := by
  rintro x hx rfl hreach
  obtain ⟨hk, hids⟩ := has_of_mem hx hn
  obtain ⟨z, y, hkids, rfl, -⟩ := exists_pair hids
  have hz : z ∈ o.kids r x := hkids ▸ List.mem_cons_self
  have hallows := h z (mem_table_kids hx z hz) rfl ((reachable_first hkids).trans hreach)
  apply allows_of_leave hx (by rw [hk]; rfl) hreach hz hallows ho
  intro hfree
  change (o.part r x).flow.completes = true
  rw [completes_do hk hkids, hfree, Bool.or_true]

section Guards

variable {κ : NodeId → Option Const}
  (hκ : ∀ x ∈ o.table r, κ x.1.id = (Tree.ofOutline o).constantOf x.1.id)

include hκ

theorem sound_doExit (hn : (o.subject r).tree.Has id .doWhile [c, d])
    (h : o.Sound r (.node c) out) (ho : (o.subject r).Repeats id out) (hguard : Guard κ d false) :
    o.Sound r (.node id) .normal := by
  rintro x hx rfl hreach
  obtain ⟨hk, hids⟩ := has_of_mem hx hn
  obtain ⟨z, y, hkids, rfl, rfl⟩ := exists_pair hids
  have hz : z ∈ o.kids r x := hkids ▸ List.mem_cons_self
  have hy : y ∈ o.kids r x := hkids ▸ List.mem_cons_of_mem z List.mem_cons_self
  have hallows := h z (mem_table_kids hx z hz) rfl ((reachable_first hkids).trans hreach)
  exact allows_of_doExit (hκ y (mem_table_kids hx y hy)) hx hk hkids hallows ho hguard

theorem sound_whileExit (hn : (o.subject r).tree.Has id .whileLoop [c, d])
    (hguard : Guard κ c false) : o.Sound r (.node id) .normal := by
  rintro x hx rfl hreach
  obtain ⟨hk, hids⟩ := has_of_mem hx hn
  obtain ⟨y, z, hkids, rfl, -⟩ := exists_pair hids
  have hy : y ∈ o.kids r x := hkids ▸ List.mem_cons_self
  exact allows_of_whileExit (hκ y (mem_table_kids hx y hy)) hk hkids hreach hguard

theorem sound_whileLeave (hn : (o.subject r).tree.Has id .whileLoop [c, d])
    (hguard : Guard κ c true) (h : o.Sound r (.node d) out)
    (ho : ¬(o.subject r).Repeats id out) : o.Sound r (.node id) (out.beyond id) := by
  rintro x hx rfl hreach
  obtain ⟨hk, hids⟩ := has_of_mem hx hn
  obtain ⟨y, z, hkids, rfl, rfl⟩ := exists_pair hids
  have hy : y ∈ o.kids r x := hkids ▸ List.mem_cons_self
  have hz : z ∈ o.kids r x := hkids ▸ List.mem_cons_of_mem y List.mem_cons_self
  have hlive := reachable_of_guard (hκ y (mem_table_kids hx y hy)) hk hkids hreach hguard
  apply allows_of_leave hx (by rw [hk]; rfl) hreach hz (h z (mem_table_kids hx z hz) rfl hlive) ho
  intro hfree
  change (o.part r x).flow.completes = true
  rw [completes_while hk hkids, hreach, hfree, Bool.or_true]
  rfl

end Guards

theorem sound_switch {before after : List NodeId}
    (hn : (o.subject r).tree.Has id .switch (c :: (before ++ d :: after)))
    (h : o.Sound r (.all (d :: after)) out) : o.Sound r (.node id) (out.beyond id) := by
  rintro x hx rfl hreach
  obtain ⟨hk, hids⟩ := has_of_mem hx hn
  obtain ⟨y, cases, hkids, -, hcases⟩ := List.map_eq_cons_iff.1 hids
  obtain ⟨ws, entered, rfl, -, hentered⟩ := List.map_eq_append_iff.1 hcases
  obtain ⟨z, zs, rfl, -, -⟩ := List.map_eq_cons_iff.1 hentered
  have hmem : ∀ w ∈ z :: zs, w ∈ o.kids r x := by
    intro w hw
    rw [hkids]
    exact List.mem_cons_of_mem y (List.mem_append_right ws hw)
  apply allows_of_switch hx hk hreach hkids
  apply h (z :: zs) (fun w hw => mem_table_kids hx w (hmem w hw)) hentered
  apply chained_of_reachable
  intro w hw
  exact (reachable_kid (by rw [hk]; rfl) (by rw [hk]; exact nofun) (hmem w hw)).trans hreach

theorem sound_switchSkip (hn : (o.subject r).tree.Has id .switch (c :: rest))
    (hdefault : ∀ d ∈ rest, (o.subject r).tree.kind? d ≠ some (.case true)) :
    o.Sound r (.node id) .normal := by
  rintro x hx rfl hreach
  obtain ⟨hk, hids⟩ := has_of_mem hx hn
  obtain ⟨y, zs, hkids, -, rfl⟩ := List.map_eq_cons_iff.1 hids
  apply allows_of_switchSkip hk hreach hkids
  intro z hz hkind
  have hkid : z ∈ o.kids r x := hkids ▸ List.mem_cons_of_mem y hz
  apply hdefault z.1.id (List.mem_map.2 ⟨z, hz, rfl⟩)
  rw [kind?_of_mem (mem_table_kids hx z hkid), hkind]

theorem sound_labeled {label : String} (hn : (o.subject r).tree.Has id (.labeled label) [c])
    (h : o.Sound r (.node c) out) : o.Sound r (.node id) (out.beyond id) := by
  rintro x hx rfl hreach
  obtain ⟨hk, hids⟩ := has_of_mem hx hn
  obtain ⟨z, hkids, rfl⟩ := List.map_eq_singleton_iff.1 hids
  have hz : z ∈ o.kids r x := hkids ▸ List.mem_cons_self
  have hallows := h z (mem_table_kids hx z hz) rfl ((reachable_first hkids).trans hreach)
  exact allows_of_labeled hx hk hreach hkids hallows

theorem sound_jump {j : Jump} {l : JumpLabel} {target : NodeId}
    (hn : (o.subject r).tree.Has id (jumpKind j l) rest)
    (htarget : (o.subject r).tree.jump? id = some (.ok target)) :
    o.Sound r (.node id) (.jumped j l target) := by
  rintro x hx rfl hreach
  exact allows_of_jump hx (has_of_mem hx hn).1 hreach htarget

theorem sound_throws (hrules : ∀ id v, r.raised (o.subject r).tree id ≠ .error v)
    (hn : (o.subject r).tree.Has id (.throws type) rest) : o.Sound r (.node id) (.raised type) := by
  rintro x hx rfl hreach
  obtain ⟨hk, -⟩ := has_of_mem hx hn
  have hkind : r.raised (o.subject r).tree x.1.id = r.raisedBy (.throws type) := by
    rw [Rules.raised, node?_subject hx]
    exact congrArg r.raisedBy hk
  have hraised := hrules x.1.id
  rw [hkind] at hraised
  refine raised_of_raises ?_ hreach (hkind.trans (raisedBy_throws hraised))
    (PackedSet.contains_singleton.2 rfl)
  rw [hk]
  exact nofun

/-! ## Try statements -/

section Try

variable {clauses : List NodeId}

theorem sound_unhandled (h : o.Sound r (.node c) out)
    (ho : ∀ type, out = .raised type → (o.subject r).handler? clauses type = none) :
    o.Sound r (.handled c clauses) out := by
  rintro b cs hmem hid rfl
  obtain ⟨⟨hb, hlive⟩, hcs⟩ := List.forall_mem_cons.1 hmem
  have hallows := h b hb hid hlive
  cases out with
  | normal => exact .inl hallows
  | returned => exact ⟨b, List.mem_cons_self, hallows⟩
  | jumped j l t => exact ⟨b, List.mem_cons_self, hallows⟩
  | raised type =>
    left
    refine ⟨hallows, ?_⟩
    intro c hc caught hkind
    exact uncaught_of_handler? (fun c hc => (hcs c hc).1) (ho type rfl) hc hkind

theorem sound_handled (hfirst : (o.subject r).handler? clauses type = some d)
    (h : o.Sound r (.node d) out) : o.Sound r (.handled c clauses) out := by
  rintro b cs hmem - rfl
  obtain ⟨-, hcs⟩ := List.forall_mem_cons.1 hmem
  obtain ⟨f, hf, hid, hcatch⟩ := exists_of_handler? (fun c hc => (hcs c hc).1) hfirst
  have hallows := h f (hcs f hf).1 hid (hcs f hf).2
  cases out with
  | normal => exact .inr ⟨f, hf, hcatch, hallows⟩
  | returned => exact ⟨f, List.mem_cons_of_mem b hf, hallows⟩
  | jumped j l t => exact ⟨f, List.mem_cons_of_mem b hf, hallows⟩
  | raised type => exact .inr ⟨f, hf, hcatch, hallows⟩

theorem exists_clauses (hx : x ∈ o.table r) (hreach : x.1.reachable = true)
    (hn : (o.subject r).tree.Has x.1.id .tryCatch (c :: clauses)) :
    ∃ b cs, x.2.kind = .tryCatch ∧ o.kids r x = b :: cs ∧ b.1.id = c ∧
      (cs.map fun z => z.1.id) = clauses ∧
      ∀ z ∈ b :: cs, z ∈ o.table r ∧ z.1.reachable = true := by
  obtain ⟨hk, hids⟩ := has_of_mem hx hn
  obtain ⟨b, cs, hkids, hid, hcs⟩ := List.map_eq_cons_iff.1 hids
  refine ⟨b, cs, hk, hkids, hid, hcs, ?_⟩
  intro z hz
  rw [← hkids] at hz
  exact ⟨mem_table_kids hx z hz,
    (reachable_kid (by rw [hk]; rfl) (by rw [hk]; exact nofun) hz).trans hreach⟩

theorem sound_tryPlain (hn : (o.subject r).tree.Has id .tryCatch (c :: clauses))
    (hnone : (o.subject r).finalizer? clauses = none) (h : o.Sound r (.handled c clauses) out) :
    o.Sound r (.node id) out := by
  rintro x hx rfl hreach
  obtain ⟨b, cs, hk, hkids, hid, rfl, hmem⟩ := exists_clauses hx hreach hn
  obtain ⟨found, hfound, hflow, -⟩ :=
    finalizer?_eq fun z hz => (hmem z (List.mem_cons_of_mem b hz)).1
  rw [hnone] at hfound
  rw [Option.map_eq_none_iff.1 hfound.symm] at hflow
  apply allows_of_handled hk hkids hreach _ (h b cs hmem hid rfl)
  intro last hlast
  rw [hflow] at hlast
  cases hlast

theorem exists_finalizer {cs : List (Site × Outline)} (hcs : ∀ z ∈ cs, z ∈ o.table r)
    (hlast : (o.subject r).finalizer? (cs.map fun z => z.1.id) = some d) :
    ∃ f ∈ cs, f.1.id = d ∧ Flow.finalizer? (cs.map (o.part r)) = some (o.part r f) := by
  obtain ⟨found, hfound, hflow, hmem⟩ := finalizer?_eq hcs
  rw [hlast] at hfound
  obtain ⟨f, rfl, hid⟩ := Option.map_eq_some_iff.1 hfound.symm
  exact ⟨f, hmem f rfl, hid, hflow⟩

theorem sound_tryFinally (hn : (o.subject r).tree.Has id .tryCatch (c :: clauses))
    (hlast : (o.subject r).finalizer? clauses = some d) (h : o.Sound r (.handled c clauses) out)
    (hfinal : o.Sound r (.node d) .normal) : o.Sound r (.node id) out := by
  rintro x hx rfl hreach
  obtain ⟨b, cs, hk, hkids, hid, rfl, hmem⟩ := exists_clauses hx hreach hn
  obtain ⟨-, hcs⟩ := List.forall_mem_cons.1 hmem
  obtain ⟨f, hf, rfl, hflow⟩ := exists_finalizer (fun z hz => (hcs z hz).1) hlast
  apply allows_of_handled hk hkids hreach _ (h b cs hmem hid rfl)
  intro last hfound
  rw [hflow] at hfound
  cases hfound
  exact hfinal f (hcs f hf).1 rfl (hcs f hf).2

theorem sound_tryOverride (hn : (o.subject r).tree.Has id .tryCatch (c :: clauses))
    (hlast : (o.subject r).finalizer? clauses = some d) (h : o.Sound r (.node d) out)
    (ho : out ≠ .normal) : o.Sound r (.node id) out := by
  rintro x hx rfl hreach
  obtain ⟨b, cs, hk, hkids, -, rfl, hmem⟩ := exists_clauses hx hreach hn
  obtain ⟨-, hcs⟩ := List.forall_mem_cons.1 hmem
  obtain ⟨f, hf, rfl, hflow⟩ := exists_finalizer (fun z hz => (hcs z hz).1) hlast
  exact allows_of_override hk hkids hreach hf hflow (h f (hcs f hf).1 rfl (hcs f hf).2) ho

end Try

/-! ## Executions -/

theorem Chained.of_append {entry : Prop} {ws zs : List (Site × Outline)}
    (h : Chained o r entry (ws ++ zs)) : Chained o r entry ws := by
  induction ws generalizing entry with
  | nil => trivial
  | cons w rest ih => exact ⟨h.1, ih h.2⟩

theorem Chained.reachable_append {entry : Prop} {ws zs : List (Site × Outline)}
    (h : Chained o r entry (ws ++ z :: zs)) (hentry : ws = [] → entry)
    (hlast : o.AllowsAll r ws .normal) : z.1.reachable = true := by
  induction ws generalizing entry with
  | nil => exact h.1 (hentry rfl)
  | cons w rest ih =>
    apply ih h.2
    · rintro rfl
      exact hlast w rfl
    · intro last hmem
      apply hlast last
      rw [List.getLast?_cons, hmem]
      rfl

/-- A statement that is no sequence may hand control to any of its children. -/
theorem exists_started_tail (hx : x ∈ o.table r) (hreach : x.1.reachable = true)
    (hn : (o.subject r).tree.Has x.1.id kind (c :: rest)) (hseq : kind.isSequence = false)
    (hloop : kind ≠ .whileLoop) (hmem : d ∈ rest) :
    ∃ z ∈ o.kids r x, z.1.id = d ∧ z.1.reachable = true := by
  obtain ⟨rfl, hids⟩ := has_of_mem hx hn
  obtain ⟨y, zs, hkids, -, rfl⟩ := List.map_eq_cons_iff.1 hids
  obtain ⟨z, hz, hid⟩ := List.mem_map.1 hmem
  have hkid : z ∈ o.kids r x := hkids ▸ List.mem_cons_of_mem y hz
  exact ⟨z, hkid, hid, (reachable_kid hseq hloop hkid).trans hreach⟩

section Executions

variable {κ : NodeId → Option Const}
  (hκ : ∀ x ∈ o.table r, κ x.1.id = (Tree.ofOutline o).constantOf x.1.id)
  (hrules : ∀ id v, r.raised (o.subject r).tree id ≠ .error v)

include hκ hrules

theorem sound_of_exec {task : Task} (h : (o.subject r).Exec κ task out) : o.Sound r task out := by
  induction h with
  | done =>
    intro zs _ hids _
    rw [List.map_eq_nil_iff.1 hids]
    exact nofun
  | next _ _ ihc ihrest => exact sound_next ihc ihrest
  | stop _ ho ihc => exact sound_stop ihc ho
  | straight hn hk _ _ => exact sound_straight hn hk
  | straightRaise hn hk _ ih => exact sound_straightRaise hn hk ih
  | shortcut hn _ _ _ => exact sound_straight hn rfl
  | callRaise hn _ hraised htype _ => exact sound_callRaise hn hraised htype
  | body hn hk _ ih => exact sound_body hn hk ih
  | testRaise hn hk _ ih => exact sound_testRaise hn hk ih
  | branch hn _ hmem _ _ ih => exact sound_branch hn hmem ih
  | branchSkip hn _ _ => exact sound_branchSkip hn
  | whileExit hn _ hguard _ => exact sound_whileExit hκ hn hguard
  | whileLeave hn _ hguard _ ho _ ih => exact sound_whileLeave hκ hn hguard ih ho
  | whileRepeat _ _ _ _ _ _ _ _ ihagain => exact ihagain
  | doLeave hn _ ho ih => exact sound_doLeave hn ih ho
  | doRaise hn _ _ _ _ ihcond => exact sound_doRaise hn ihcond
  | doExit hn _ ho _ hguard ihbody _ => exact sound_doExit hκ hn ihbody ho hguard
  | doRepeat _ _ _ _ _ _ _ _ ihagain => exact ihagain
  | switch hn _ _ _ ih => exact sound_switch hn ih
  | switchSkip hn _ hdefault _ => exact sound_switchSkip hn hdefault
  | labeled hn _ ih => exact sound_labeled hn ih
  | @breakTo _ _ label _ hn htarget =>
    cases label with
    | none => exact sound_jump hn htarget
    | some name => exact sound_jump hn htarget
  | @continueTo _ _ label _ hn htarget =>
    cases label with
    | none => exact sound_jump hn htarget
    | some name => exact sound_jump hn htarget
  | throws hn => exact sound_throws hrules hn
  | unhandled _ ho ih => exact sound_unhandled ih ho
  | handled _ hfirst _ _ ih => exact sound_handled hfirst ih
  | tryPlain hn hnone _ ih => exact sound_tryPlain hn hnone ih
  | tryFinally hn hlast _ _ ihbody ihfinal => exact sound_tryFinally hn hlast ihbody ihfinal
  | tryOverride hn hlast _ _ ho _ ihfinal => exact sound_tryOverride hn hlast ihfinal ho

theorem exists_started (hx : x ∈ o.table r) (hreach : x.1.reachable = true)
    (h : (o.subject r).Starts κ x.1.id c) :
    ∃ z ∈ o.kids r x, z.1.id = c ∧ z.1.reachable = true := by
  cases h with
  | inOrder hn hk hall =>
    obtain ⟨rfl, hids⟩ := has_of_mem hx hn
    have hchain : Chained o r True (o.kids r x) :=
      hk.elim (fun hk => chained_straight hk hreach) fun hk => chained_body hk hreach
    have hmem := mem_table_kids hx
    obtain ⟨ws, entered, hkids, hws, hentered⟩ := List.map_eq_append_iff.1 hids
    obtain ⟨z, zs, rfl, hid, -⟩ := List.map_eq_cons_iff.1 hentered
    rw [hkids] at hchain hmem ⊢
    have hbefore := sound_of_exec hκ hrules hall ws
      (fun w hw => hmem w (List.mem_append_left _ hw)) hws hchain.of_append
    exact ⟨z, List.mem_append_right ws List.mem_cons_self, hid,
      hchain.reachable_append (fun _ => trivial) hbefore⟩
  | first hn =>
    obtain ⟨-, hids⟩ := has_of_mem hx hn
    obtain ⟨z, zs, hkids, hid, -⟩ := List.map_eq_cons_iff.1 hids
    exact ⟨z, hkids ▸ List.mem_cons_self, hid, (reachable_first hkids).trans hreach⟩
  | branch hn _ hmem => exact exists_started_tail hx hreach hn rfl nofun hmem
  | case hn _ hmem => exact exists_started_tail hx hreach hn rfl nofun hmem
  | handler hn _ hfirst =>
    exact exists_started_tail hx hreach hn rfl nofun (List.mem_of_find?_eq_some hfirst)
  | finalizer hn _ hlast =>
    exact exists_started_tail hx hreach hn rfl nofun (List.mem_of_find?_eq_some hlast)
  | doCond hn _ _ => exact exists_started_tail hx hreach hn rfl nofun List.mem_cons_self
  | whileBody hn _ hguard =>
    obtain ⟨hk, hids⟩ := has_of_mem hx hn
    obtain ⟨y, z, hkids, rfl, hid⟩ := exists_pair hids
    have hy : y ∈ o.kids r x := hkids ▸ List.mem_cons_self
    exact ⟨z, hkids ▸ List.mem_cons_of_mem y List.mem_cons_self, hid,
      reachable_of_guard (hκ y (mem_table_kids hx y hy)) hk hkids hreach hguard⟩

/-- **Every node that an execution comes to is reachable.** -/
theorem exists_entered (h : (o.subject r).Entered κ id) :
    ∃ x ∈ o.table r, x.1.id = id ∧ x.1.reachable = true := by
  induction h with
  | refl => exact ⟨(root, o), self_mem_sites _ _, rfl, rfl⟩
  | tail _ hstarts ih =>
    obtain ⟨x, hx, rfl, hreach⟩ := ih
    obtain ⟨z, hz, hid, hlive⟩ := exists_started hκ hrules hx hreach hstarts
    exact ⟨z, mem_table_kids hx z hz, hid, hlive⟩

end Executions

end Outline

/-! ## Programs -/

/-- The analysis finds that the node may end so. -/
def Stmt.Foresees (program : Stmt) (rules : Rules) (id : NodeId) : Outcome → Prop
  | .normal => program.Finds rules .completes id true
  | .jumped .break label _ =>
    ∃ labels, program.Finds rules .breaks id labels ∧ PackedSet.contains labels label = true
  | .jumped .continue label _ =>
    ∃ labels, program.Finds rules .continues id labels ∧ PackedSet.contains labels label = true
  | .returned => True
  | .raised type =>
    ∃ types, program.Finds rules .propagated id types ∧ PackedSet.contains types type = true

/-- **Flow and exceptions are sound for execution.** If no rule is broken, every node
that an execution of the program comes to is found to be reachable, and however the
execution of the node ends, the analysis has foreseen it. -/
theorem execution_sound (program : Stmt) (rules : Rules) {κ : NodeId → Option Const}
    (hκ : ∀ id < (Tree.ofProgram program).size, program.Finds rules .constant id (κ id))
    (hrules : ∀ id v, rules.raised (.ofProgram program) id ≠ .error v) {id : NodeId}
    (h : (program.subject rules).Entered κ id) :
    program.Finds rules .reachable id true ∧
      ∀ out, (program.subject rules).Exec κ (.node id) out → program.Foresees rules id out := by
  let o := (program.outline 0).1
  have hlt : ∀ x ∈ o.table rules, x.1.id < (Tree.ofProgram program).size :=
    fun x hx => Tree.id_lt_size hx
  have hconst : ∀ x ∈ o.table rules, κ x.1.id = (Tree.ofOutline o).constantOf x.1.id := by
    intro x hx
    rw [← Outline.reference_constant o rules]
    exact (hκ x.1.id (hlt x hx)).unique (program.finds_reference rules .constant (hlt x hx))
  obtain ⟨x, hx, rfl, hreach⟩ := Outline.exists_entered hconst hrules h
  have hfinds : ∀ a, program.Finds rules a x.1.id (o.valueAt rules x a) := by
    intro a
    rw [← Outline.reference_of_mem hx a]
    exact program.finds_reference rules a (hlt x hx)
  constructor
  · have hlive := hfinds .reachable
    rw [show o.valueAt rules x .reachable = true from hreach] at hlive
    exact hlive
  · intro out hexec
    have hallows := Outline.sound_of_exec hconst hrules hexec x hx rfl hreach
    cases out with
    | normal =>
      have hcompletes := hfinds .completes
      rw [show o.valueAt rules x .completes = true from hallows] at hcompletes
      exact hcompletes
    | returned => trivial
    | raised type => exact ⟨_, hfinds .propagated, hallows⟩
    | jumped j l t =>
      cases j with
      | «break» => exact ⟨_, hfinds .breaks, hallows.label⟩
      | «continue» => exact ⟨_, hfinds .continues, hallows.label⟩

theorem Rules.raised_ne_error {r : Rules} (h : r.strict = false) (t : Tree) (id : NodeId)
    (v : Violation) : r.raised t id ≠ .error v := by
  have hdeclared : ∀ type, r.requireDeclared type = .ok () := by
    intro type
    rw [requireDeclared, h]
    rfl
  have hby : ∀ kind, r.raisedBy kind ≠ .error v := by
    intro kind heq
    cases kind with
    | throws type | catchClause type =>
      rw [raisedBy, hdeclared] at heq
      cases heq
    | call callee =>
      rw [raisedBy, h] at heq
      cases hlookup : r.functions.lookup callee with
      | none =>
        rw [hlookup] at heq
        cases heq
      | some raises =>
        rw [hlookup] at heq
        cases heq
    | _ => cases heq
  unfold raised
  cases t.node? id with
  | none =>
    intro heq
    cases heq
  | some n => exact hby n.kind

/-- A loop that goes on from the handler of an exception, and a statement after it. -/
def retried : Stmt :=
  .block [
    .labeled "again" (.doWhile
      (.tryCatch (.throws ⟨"Busy"⟩) [.mk ⟨"Busy"⟩ (.continueTo (some "again"))] none)
      (.bool false)),
    .expr (.call "proceed" [])]

theorem exec_retried :
    (retried.subject {}).Exec (Tree.ofProgram retried).constantOf (.node 1) .normal := by
  have hthrow : (Tree.ofProgram retried).Has 4 (.throws ⟨"Busy"⟩) [] := ⟨_, rfl, rfl, rfl⟩
  have hcatch : (Tree.ofProgram retried).Has 5 (.catchClause ⟨"Busy"⟩) [6] := ⟨_, rfl, rfl, rfl⟩
  have hjump : (Tree.ofProgram retried).Has 6 (.continueTo (some "again")) [] :=
    ⟨_, rfl, rfl, rfl⟩
  have htry : (Tree.ofProgram retried).Has 3 .tryCatch [4, 5] := ⟨_, rfl, rfl, rfl⟩
  have hcond : (Tree.ofProgram retried).Has 7 (.bool false) [] := ⟨_, rfl, rfl, rfl⟩
  have hloop : (Tree.ofProgram retried).Has 2 .doWhile [3, 7] := ⟨_, rfl, rfl, rfl⟩
  have hlabel : (Tree.ofProgram retried).Has 1 (.labeled "again") [2] := ⟨_, rfl, rfl, rfl⟩
  have hfirst : (retried.subject {}).handler? [5] ⟨"Busy"⟩ = some 5 := rfl
  have hcontinue : (retried.subject {}).Exec (Tree.ofProgram retried).constantOf (.node 6)
      (.jumped .continue (.ofLabel (some "again")) 1) := .continueTo hjump rfl
  have htest : (retried.subject {}).Exec (Tree.ofProgram retried).constantOf (.node 7)
      (NodeKind.result (.bool false)) := .straight hcond rfl .done
  have hround : (retried.subject {}).Repeats 2 (.jumped .continue (.named "again") 1) :=
    .inr ⟨rfl, "again", [2], hlabel⟩
  have hguard : Guard (Tree.ofProgram retried).constantOf 7 false := by
    intro b hb
    rw [show (Tree.ofProgram retried).constantOf 7 = some (.bool false) from rfl] at hb
    cases hb
    rfl
  apply Subject.Exec.labeled (o := .normal) hlabel
  apply Subject.Exec.doExit hloop _ hround htest hguard
  apply Subject.Exec.tryPlain htry rfl
  apply Subject.Exec.handled (.throws hthrow) hfirst
  exact .body hcatch rfl (.stop hcontinue nofun)

/-- The loop is found to complete, and the statement after it to be reachable. -/
theorem execution_sound_retried :
    (retried.subject {}).Exec (Tree.ofProgram retried).constantOf (.node 1) .normal ∧
    (retried.subject {}).Entered (Tree.ofProgram retried).constantOf 8 ∧
    retried.Finds {} .completes 1 true ∧ retried.Finds {} .reachable 8 true := by
  have hκ : ∀ id < (Tree.ofProgram retried).size,
      retried.Finds {} .constant id ((Tree.ofProgram retried).constantOf id) := by
    intro id hid
    have hfinds := retried.finds_reference {} .constant hid
    rw [Outline.reference_constant] at hfinds
    exact hfinds
  have hrules := Rules.raised_ne_error (r := {}) rfl (.ofProgram retried)
  have hblock : (Tree.ofProgram retried).Has 0 .block ([1] ++ [8]) := ⟨_, rfl, rfl, rfl⟩
  have hloop : (retried.subject {}).Entered (Tree.ofProgram retried).constantOf 1 :=
    .single (.first hblock)
  have hafter : (retried.subject {}).Entered (Tree.ofProgram retried).constantOf 8 :=
    .single (.inOrder hblock (.inr rfl) (.next exec_retried .done))
  exact ⟨exec_retried, hafter,
    (execution_sound retried {} hκ hrules hloop).2 .normal exec_retried,
    (execution_sound retried {} hκ hrules hafter).1⟩

end Attribution
