import Attribution.Proofs.Semantics.Surroundings
/-!
# What statements let out

The attributes of a node allow for an outcome (`Allows`) when the node completes if
it may end normally, and the jumps and exceptions that may leave it are among those
that it is said to let out. There is one lemma here for each way in which the
outcomes of its parts become the outcome of a statement.
-/

namespace Attribution

def NodeKind.isScope : NodeKind → Bool
  | .whileLoop | .doWhile | .switch | .labeled _ => true
  | _ => false

namespace Outline

variable (o : Outline) (r : RuleProvider)

structure JumpsOut (x : Site × Outline) (j : Jump) (l : JumpLabel) (t : NodeId) : Prop where
  statement : x.2.kind.isStatement = true
  label : (labelsOf j (o.part r x).flow).contains l = true
  target : Target j x.1.scopes l t
  leaves : x.2.kind.isLoop = true → ¬(o.subject r).Repeats x.1.id (.jumped j l t)

/-- The attributes of the node allow for the outcome. -/
def Allows (x : Site × Outline) : Outcome → Prop
  | .normal => (o.part r x).flow.completes = true
  | .jumped j l t => o.JumpsOut r x j l t
  | .returned => True
  | .raised type => (o.part r x).flow.propagated.contains type = true

def AllowsAll (zs : List (Site × Outline)) : Outcome → Prop
  | .normal => ∀ z, zs.getLast? = some z → (o.part r z).flow.completes = true
  | out => ∃ z ∈ zs, o.Allows r z out

def AllowsHandled (body : Site × Outline) (cs : List (Site × Outline)) : Outcome → Prop
  | .normal => (o.part r body).flow.completes = true ∨
    ∃ c ∈ cs, c.2.kind.isCatch = true ∧ (o.part r c).flow.completes = true
  | .raised type => ((o.part r body).flow.propagated.contains type = true ∧
      ∀ c ∈ cs, ∀ caught, c.2.kind.caught? = some caught → r.isSubtype type caught = false) ∨
    ∃ c ∈ cs, c.2.kind.isCatch = true ∧ (o.part r c).flow.propagated.contains type = true
  | out => ∃ z ∈ body :: cs, o.Allows r z out

variable {o r} {x y z : Site × Outline} {j : Jump} {l : JumpLabel} {t : NodeId}
  {type : ExcType} {out : Outcome} {zs : List (Site × Outline)}

/-! ## Exceptions that pass through -/

theorem raised_of_kid (hk : x.2.kind ≠ .tryCatch) (hreach : x.1.reachable = true)
    (hz : z ∈ o.kids r x) (h : o.Allows r z (.raised type)) : o.Allows r x (.raised type) := by
  change (o.part r x).flow.propagated.contains type = true
  rw [propagated_part hk hreach, PackedSet.contains_foldl_union]
  exact .inr ⟨o.part r z, List.mem_map.2 ⟨z, hz, rfl⟩, h⟩

theorem raised_of_raises {types : TypeSet} (hk : x.2.kind ≠ .tryCatch) (hreach : x.1.reachable = true)
    (hraised : r.raised (o.subject r).tree x.1.id = .ok types) (h : types.contains type = true) :
    o.Allows r x (.raised type) := by
  have hown : Flow.raisedBy (o.subject r) x.1.id = types := by
    rw [Flow.raisedBy, show (o.subject r).rules.raised (o.subject r).tree x.1.id = .ok types from
      hraised]
  change (o.part r x).flow.propagated.contains type = true
  rw [propagated_part hk hreach, PackedSet.contains_foldl_union, hown]
  exact .inl h

theorem raisedBy_throws {r : Rules} (h : ∀ v, r.raisedBy (.throws type) ≠ .error v) :
    r.raisedBy (.throws type) = .ok (.singleton type) := by
  have hdeclared : r.requireDeclared type = .ok () := by
    cases hreq : r.requireDeclared type with
    | ok _ => rfl
    | error v =>
      refine absurd ?_ (h v)
      rw [Rules.raisedBy, hreq]
      rfl
  rw [Rules.raisedBy, hdeclared]
  rfl

/-! ## Jumps that pass through -/

theorem escaping_of_kid (hz : z ∈ o.kids r x) (h : o.JumpsOut r z j l t) :
    (o.escaping r j x).contains l = true := by
  rw [escaping, PackedSet.contains_foldl_union]
  exact .inr ⟨o.part r z, List.mem_filter.2 ⟨List.mem_map.2 ⟨z, hz, rfl⟩, h.statement⟩, h.label⟩

theorem jumpsOut_of_kid (hk : x.2.kind.isBody = true ∨ x.2.kind = .ifThen) (hz : z ∈ o.kids r x)
    (h : o.JumpsOut r z j l t) : o.JumpsOut r x j l t := by
  have hlabel := escaping_of_kid hz h
  have htarget := h.target
  rw [scopes_kid hz] at htarget
  have hflow := labels_part (o := o) (r := r) j x
  unfold scopesWithin at htarget
  cases hkind : x.2.kind with
  | block | case _ | catchClause _ | finallyClause | ifThen =>
    rw [hkind] at hflow htarget
    refine ⟨by rw [hkind]; rfl, ?_, htarget, by rw [hkind]; exact nofun⟩
    rw [hflow]
    cases j with
    | «break» => exact hlabel
    | «continue» => exact hlabel
  | _ =>
    rw [hkind] at hk
    rcases hk with hk | hk <;> cases hk

theorem allows_of_jump (hx : x ∈ o.table r) (hk : x.2.kind = jumpKind j l)
    (hreach : x.1.reachable = true)
    (ht : (o.subject r).tree.jump? x.1.id = some (.ok t)) : o.Allows r x (.jumped j l t) := by
  have hjump : (o.subject r).tree.jump? x.1.id = resolveJump x.1.scopes x.2.kind :=
    Tree.jump?_of_mem hx
  have htarget : Target j x.1.scopes l t := by
    rw [Target, ← hk, ← hjump, ht]
  have hlabel : labelsOf j (o.part r x).flow = .singleton l := by
    have hby : Flow.jumpBy x.1 (jumpKind j l) l.toLabel = .singleton l := by
      rw [Flow.jumpBy, show resolveJump x.1.scopes (jumpKind j l) = some (.ok t) from htarget]
      dsimp only
      rw [if_pos hreach]
      cases l with
      | unlabeled => rfl
      | named label => rfl
    have hflow := labels_part (o := o) (r := r) j x
    rw [hflow, hk]
    cases j with
    | «break» => exact hby
    | «continue» => exact hby
  refine ⟨?_, ?_, htarget, ?_⟩
  · rw [hk]
    cases j with
    | «break» => rfl
    | «continue» => rfl
  · rw [hlabel]
    exact PackedSet.contains_singleton.2 rfl
  · rw [hk]
    cases j with
    | «break» => exact nofun
    | «continue» => exact nofun

def scopeAt (x : Site × Outline) : Scope :=
  ⟨x.1.id, x.2.kind, x.2.children.head?.any fun c => c.kind.isLoop⟩

theorem scopes_kid_of_scope (hk : x.2.kind.isScope = true) (hz : z ∈ o.kids r x) :
    z.1.scopes = scopeAt x :: x.1.scopes := by
  rw [scopes_kid hz, scopesWithin]
  cases hkind : x.2.kind with
  | whileLoop | doWhile | switch | labeled _ => rw [scopeAt, hkind]
  | _ =>
    rw [hkind] at hk
    cases hk

theorem scopes_kid_of_plain (hk : x.2.kind.isScope = false) (hz : z ∈ o.kids r x) :
    z.1.scopes = x.1.scopes := by
  rw [scopes_kid hz, scopesWithin]
  cases hkind : x.2.kind with
  | whileLoop | doWhile | switch | labeled _ =>
    rw [hkind] at hk
    cases hk
  | _ => rfl

/-- A scope stops the jumps that fit it, and no others. -/
theorem label_of_escaping (hk : x.2.kind.isScope = true)
    (h : (o.escaping r j x).contains l = true) (hfits : fits j (scopeAt x) l = false) :
    (labelsOf j (o.part r x).flow).contains l = true := by
  have hflow := labels_part (o := o) (r := r) j x
  have hne : stops j x.2.kind = true → l ≠ .unlabeled := by
    rintro hstops rfl
    rw [show fits j (scopeAt x) .unlabeled = stops j x.2.kind from rfl, hstops] at hfits
    cases hfits
  rw [hflow]
  cases hkind : x.2.kind with
  | whileLoop | doWhile =>
    rw [hkind] at hne
    cases j with
    | «break» => exact PackedSet.contains_without.2 ⟨h, hne rfl⟩
    | «continue» => exact PackedSet.contains_without.2 ⟨h, hne rfl⟩
  | switch =>
    rw [hkind] at hne
    cases j with
    | «break» => exact PackedSet.contains_without.2 ⟨h, hne rfl⟩
    | «continue» => exact h
  | labeled label =>
    have hlabel : l ≠ .named label := by
      rintro rfl
      rw [fits, Scope.isLabeled, scopeAt, hkind, beq_self_eq_true] at hfits
      cases hfits
    cases j with
    | «break» => exact PackedSet.contains_without.2 ⟨h, hlabel⟩
    | «continue» => exact PackedSet.contains_without.2 ⟨h, hlabel⟩
  | _ =>
    rw [hkind] at hk
    cases hk

theorem cross_scope (hx : x ∈ o.table r) (hk : x.2.kind.isScope = true) (hz : z ∈ o.kids r x)
    (h : o.JumpsOut r z j l t) :
    (fits j (scopeAt x) l = true ∧ Heeds j (scopeAt x) l ∧ t = x.1.id) ∨
    (t ≠ x.1.id ∧ (labelsOf j (o.part r x).flow).contains l = true ∧ Target j x.1.scopes l t) := by
  have htarget := h.target
  rw [scopes_kid_of_scope hk hz] at htarget
  rcases target_cons htarget with hhere | ⟨hfits, houter⟩
  · exact .inl hhere
  · right
    exact ⟨Nat.ne_of_lt (houter.lt hx), label_of_escaping hk (escaping_of_kid hz h) hfits, houter⟩

theorem eq_unlabeled_of_fits (hk : ∀ label, x.2.kind ≠ .labeled label)
    (h : fits j (scopeAt x) l = true) : l = .unlabeled ∧ stops j x.2.kind = true := by
  cases l with
  | unlabeled => exact ⟨rfl, h⟩
  | named label => exact absurd (beq_iff_eq.1 h) (hk label)

theorem beyond_of_ne (h : t ≠ x.1.id) :
    (Outcome.jumped j l t).beyond x.1.id = .jumped j l t := by
  cases j with
  | «break» => exact if_neg h
  | «continue» => rfl

theorem beyond_self : (Outcome.jumped .break l x.1.id).beyond x.1.id = .normal :=
  if_pos rfl

theorem allows_of_leave (hx : x ∈ o.table r) (hk : x.2.kind.isLoop = true)
    (hreach : x.1.reachable = true) (hz : z ∈ o.kids r x) (h : o.Allows r z out)
    (hleave : ¬(o.subject r).Repeats x.1.id out)
    (hbreak : Flow.breaksFree (o.part r z) = true → o.Allows r x .normal) :
    o.Allows r x (out.beyond x.1.id) := by
  have hscope : x.2.kind.isScope = true := by
    cases hkind : x.2.kind with
    | whileLoop | doWhile => rfl
    | _ =>
      rw [hkind] at hk
      cases hk
  have hother : ∀ kind, kind.isLoop = false → x.2.kind ≠ kind := by
    rintro kind hkind rfl
    rw [hk] at hkind
    cases hkind
  cases out with
  | normal => exact absurd trivial hleave
  | returned => trivial
  | raised type => exact raised_of_kid (hother _ rfl) hreach hz h
  | jumped j l t =>
    rcases cross_scope hx hscope hz h with ⟨hfits, -, rfl⟩ | ⟨hne, hlabel, htarget⟩
    · obtain ⟨rfl, -⟩ := eq_unlabeled_of_fits (fun label => hother _ rfl) hfits
      cases j with
      | «break» =>
        rw [beyond_self]
        exact hbreak h.label
      | «continue» => exact absurd (.inl rfl) hleave
    · rw [beyond_of_ne hne]
      refine ⟨?_, hlabel, htarget, fun _ => hleave⟩
      cases hkind : x.2.kind with
      | whileLoop | doWhile => rfl
      | _ =>
        rw [hkind] at hk
        cases hk

/-- The body of a loop goes on to the test by its end or by a continue without
label or with the label on the loop. -/
theorem continued_of_repeats (hx : x ∈ o.table r) (hk : x.2.kind = .doWhile)
    (hz : z ∈ o.kids r x) (h : o.Allows r z out) (hrepeats : (o.subject r).Repeats x.1.id out) :
    (o.part r z).flow.completes = true ∨
      (o.part r z).flow.continues.contains .unlabeled = true ∨
      ∃ label, x.1.label = some label ∧
        (o.part r z).flow.continues.contains (.named label) = true := by
  cases out with
  | normal => exact .inl h
  | returned => exact hrepeats.elim
  | raised type => exact hrepeats.elim
  | jumped j l t =>
    cases j with
    | «break» => exact hrepeats.elim
    | «continue» =>
      have hlabel : (o.part r z).flow.continues.contains l = true := h.label
      rcases cross_scope hx (by rw [hk]; rfl) hz h with ⟨hfits, -, -⟩ | ⟨hne, -, htarget⟩
      · obtain ⟨rfl, -⟩ := eq_unlabeled_of_fits (fun label => by rw [hk]; exact nofun) hfits
        exact .inr (.inl hlabel)
      · obtain ⟨hparent, label, children, hhas⟩ := hrepeats.resolve_left hne
        rcases eq_root_or_mem_offspring o hx with rfl | ⟨y, hy, hmem⟩
        · rw [parent?_root hx] at hparent
          cases hparent
        · obtain ⟨i, hi⟩ := List.mem_iff_getElem?.1 hmem
          rw [parent?_of_mem hx hi] at hparent
          obtain rfl : y.1.id = t := Option.some.inj hparent
          obtain ⟨hky, -⟩ := has_of_mem hy hhas
          have hown : x.1.label = some label := by
            rw [(of_mem_offspring hi).2.2.2.1, hky]
            rfl
          rw [scopes_kid_of_scope (by rw [hky]; rfl) hmem] at htarget
          rcases target_cons htarget with ⟨hfits, -, -⟩ | ⟨-, houter⟩
          · cases l with
            | unlabeled => exact .inr (.inl hlabel)
            | named label' =>
              have heq : y.2.kind = .labeled label' := beq_iff_eq.1 hfits
              rw [hky] at heq
              cases heq
              exact .inr (.inr ⟨label, hown, hlabel⟩)
          · exact absurd (houter.lt hy) (Nat.lt_irrefl _)

theorem allows_of_labeled (hx : x ∈ o.table r) {label : String} (hk : x.2.kind = .labeled label)
    (hreach : x.1.reachable = true) (hkids : o.kids r x = [z]) (h : o.Allows r z out) :
    o.Allows r x (out.beyond x.1.id) := by
  have hz : z ∈ o.kids r x := by
    rw [hkids]
    exact List.mem_singleton_self z
  have hcompletes := completes_labeled hk hkids
  cases out with
  | normal =>
    change (o.part r x).flow.completes = true
    rw [hcompletes, show (o.part r z).flow.completes = true from h]
    rfl
  | returned => trivial
  | raised type => exact raised_of_kid (by rw [hk]; exact NodeKind.noConfusion) hreach hz h
  | jumped j l t =>
    rcases cross_scope hx (by rw [hk]; rfl) hz h with ⟨hfits, hheeds, rfl⟩ | ⟨hne, hlabel, htarget⟩
    · have hl : l = .named label := by
        cases l with
        | unlabeled =>
          rw [fits, scopeAt, hk] at hfits
          cases j <;> cases hfits
        | named label' =>
          have heq : x.2.kind = .labeled label' := beq_iff_eq.1 hfits
          rw [hk] at heq
          cases heq
          rfl
      subst hl
      cases j with
      | «break» =>
        rw [beyond_self]
        change (o.part r x).flow.completes = true
        rw [hcompletes, show (o.part r z).flow.breaks.contains (.named label) = true from h.label,
          Bool.or_true]
      | «continue» =>
        -- The label stands on a loop, which goes on by itself.
        have hloop : z.2.kind.isLoop = true := by
          have hholds := hheeds rfl JumpLabel.noConfusion
          rw [scopeAt, ← map_snd_kids (o := o) (r := r) x, hkids] at hholds
          exact hholds
        obtain ⟨i, hi⟩ := List.mem_iff_getElem?.1 hz
        have hparent := parent?_of_mem (mem_table_of_mem_offspring hx hz) hi
        exact absurd (.inr ⟨hparent, label, _, _, node?_subject hx, hk, rfl⟩) (h.leaves hloop)
    · rw [beyond_of_ne hne]
      exact ⟨by rw [hk]; rfl, hlabel, htarget, by rw [hk]; exact Bool.noConfusion⟩

/-! ## One statement after the other -/

theorem allowsAll_iff_of_ne (h : out ≠ .normal) :
    o.AllowsAll r zs out ↔ ∃ z ∈ zs, o.Allows r z out := by
  cases out with
  | normal => exact absurd rfl h
  | _ => rfl

theorem allowsAll_cons (hz : (o.part r z).flow.completes = true) (h : o.AllowsAll r zs out) :
    o.AllowsAll r (z :: zs) out := by
  by_cases ho : out = .normal
  · subst ho
    intro last hlast
    cases zs with
    | nil =>
      cases hlast
      exact hz
    | cons y rest => exact h last hlast
  · rw [allowsAll_iff_of_ne ho] at h ⊢
    obtain ⟨y, hy, hallows⟩ := h
    exact ⟨y, List.mem_cons_of_mem _ hy, hallows⟩

theorem completesBy_of_isBody {κ : NodeId → Option Const} {p : Site} {kind : NodeKind}
    (hk : kind.isBody = true) (parts : List Part) : Flow.completesBy κ p kind parts =
      match parts.getLast? with
      | some last => last.flow.completes
      | none => p.reachable := by
  cases kind with
  | block | case _ | catchClause _ | finallyClause => rfl
  | _ => cases hk

theorem allows_of_body (hk : x.2.kind.isBody = true) (hreach : x.1.reachable = true)
    (h : o.AllowsAll r (o.kids r x) out) : o.Allows r x out := by
  cases out with
  | normal =>
    change (o.part r x).flow.completes = true
    rw [completes_part, completesBy_of_isBody hk, List.getLast?_map]
    cases hlast : (o.kids r x).getLast? with
    | none => exact hreach
    | some last => exact h last hlast
  | returned => trivial
  | raised type =>
    obtain ⟨z, hz, hallows⟩ := h
    refine raised_of_kid ?_ hreach hz hallows
    intro hkind
    rw [hkind] at hk
    cases hk
  | jumped j l t =>
    obtain ⟨z, hz, hallows⟩ := h
    exact jumpsOut_of_kid (.inl hk) hz hallows

theorem chained_body (hk : x.2.kind.isBody = true) (hreach : x.1.reachable = true) :
    Chained o r True (o.kids r x) := by
  cases hkind : x.2.kind with
  | block | case _ => exact (chained_kids (by rw [hkind]; rfl)).mono fun _ => hreach
  | catchClause _ | finallyClause =>
    apply chained_of_reachable
    intro z hz
    rw [reachable_kid (by rw [hkind]; rfl) (by rw [hkind]; exact nofun) hz, hreach]
  | _ =>
    rw [hkind] at hk
    cases hk

theorem reachable_straight (hk : x.2.kind.isStraight = true) (hreach : x.1.reachable = true)
    (hz : z ∈ o.kids r x) : z.1.reachable = true := by
  rw [reachable_kid _ _ hz, hreach]
  · cases hkind : x.2.kind with
    | block | case _ =>
      rw [hkind] at hk
      cases hk
    | _ => rfl
  · intro hkind
    rw [hkind] at hk
    cases hk

theorem completes_straight (hk : x.2.kind.isStraight = true) (hne : x.2.kind ≠ .returns)
    (hreach : x.1.reachable = true) : o.Allows r x .normal := by
  change (o.part r x).flow.completes = true
  rw [completes_part]
  cases hkind : x.2.kind with
  | returns => exact absurd hkind hne
  | exprStmt | constDecl _ | bool _ | int _ | name _ | unary _ | binary _ | call _ => exact hreach
  | _ =>
    rw [hkind] at hk
    cases hk

/-! ## Branches and loops -/

theorem allows_of_branch (hk : x.2.kind = .ifThen) (hreach : x.1.reachable = true)
    (hkids : o.kids r x = y :: zs) (hz : z ∈ zs) (h : o.Allows r z out) : o.Allows r x out := by
  have hmem : z ∈ o.kids r x := by
    rw [hkids]
    exact List.mem_cons_of_mem _ hz
  cases out with
  | normal =>
    change (o.part r x).flow.completes = true
    rw [completes_part, hk, hkids]
    match zs, hz with
    | [yes, no], hz =>
      change ((o.part r yes).flow.completes || (o.part r no).flow.completes) = true
      rcases List.mem_pair.1 hz with rfl | rfl
      · rw [show (o.part r z).flow.completes = true from h]
        rfl
      · rw [show (o.part r z).flow.completes = true from h, Bool.or_true]
    | [yes], _ => exact hreach
    | _ :: _ :: _ :: _, _ => exact hreach
  | returned => trivial
  | raised type => exact raised_of_kid (by rw [hk]; exact nofun) hreach hmem h
  | jumped j l t => exact jumpsOut_of_kid (.inr hk) hmem h

section Guards

variable {κ : NodeId → Option Const} {value : Bool}
  (hκ : κ y.1.id = (Tree.ofOutline o).constantOf y.1.id)

include hκ

/-- A guard is not constantly what it just was not. -/
theorem constantOf_bne (h : Guard κ y.1.id value) :
    ((Tree.ofOutline o).constantOf y.1.id != some (.bool !value)) = true := by
  rw [bne_iff_ne]
  intro hconst
  have heq := h (!value) (hκ.trans hconst)
  cases value with
  | false => cases heq
  | true => cases heq

theorem reachable_of_guard (hk : x.2.kind = .whileLoop) (hkids : o.kids r x = [y, z])
    (hreach : x.1.reachable = true) (hguard : Guard κ y.1.id true) : z.1.reachable = true := by
  rw [reachable_whileBody hk hkids, hreach]
  exact constantOf_bne hκ hguard

theorem allows_of_whileExit (hk : x.2.kind = .whileLoop) (hkids : o.kids r x = [y, z])
    (hreach : x.1.reachable = true) (hguard : Guard κ y.1.id false) : o.Allows r x .normal := by
  change (o.part r x).flow.completes = true
  rw [completes_while hk hkids, hreach, Bool.true_and, Bool.or_eq_true]
  exact .inl (constantOf_bne hκ hguard)

theorem allows_of_doExit (hx : x ∈ o.table r) (hk : x.2.kind = .doWhile)
    (hkids : o.kids r x = [z, y]) (h : o.Allows r z out)
    (hrepeats : (o.subject r).Repeats x.1.id out) (hguard : Guard κ y.1.id false) :
    o.Allows r x .normal := by
  have hz : z ∈ o.kids r x := by
    rw [hkids]
    exact List.mem_cons_self
  change (o.part r x).flow.completes = true
  rw [completes_do hk hkids, Bool.or_eq_true, Bool.and_eq_true]
  left
  refine ⟨?_, constantOf_bne hκ hguard⟩
  rw [Bool.or_eq_true, Bool.or_eq_true, Option.any_eq_true]
  rcases continued_of_repeats hx hk hz h hrepeats with hends | hfree | ⟨label, hown, hlabel⟩
  · exact .inl hends
  · exact .inr (.inl hfree)
  · exact .inr (.inr ⟨label, hown, hlabel⟩)

end Guards

theorem allows_of_switchSkip (hk : x.2.kind = .switch) (hreach : x.1.reachable = true)
    (hkids : o.kids r x = y :: zs) (hdefault : ∀ z ∈ zs, z.2.kind ≠ .case true) :
    o.Allows r x .normal := by
  have hany : ((zs.map (o.part r)).any fun c => c.kind = .case true) = false := by
    rw [List.any_eq_false]
    intro c hc
    obtain ⟨z, hz, rfl⟩ := List.mem_map.1 hc
    rw [decide_eq_true_iff]
    exact hdefault z hz
  change (o.part r x).flow.completes = true
  rw [completes_switch hk hkids, hany]
  cases (zs.map (o.part r)).getLast? with
  | none => exact hreach
  | some last => exact hreach

theorem allows_of_switch (hx : x ∈ o.table r) (hk : x.2.kind = .switch)
    (hreach : x.1.reachable = true) {ws : List (Site × Outline)}
    (hkids : o.kids r x = y :: (ws ++ z :: zs)) (h : o.AllowsAll r (z :: zs) out) :
    o.Allows r x (out.beyond x.1.id) := by
  have hcompletes :
      (∀ last, (z :: zs).getLast? = some last → (o.part r last).flow.completes = true) ∨
      (∃ c ∈ z :: zs, Flow.breaksFree (o.part r c) = true) →
      (o.part r x).flow.completes = true := by
    intro hends
    rw [completes_switch hk hkids]
    split
    · exact hreach
    · rename_i last hlast
      obtain ⟨hlast, -⟩ := Option.filter_eq_some_iff.1 hlast
      rw [Bool.or_eq_true, List.any_eq_true]
      rcases hends with hends | ⟨c, hc, hfree⟩
      · left
        rw [List.getLast?_map, List.getLast?_append_of_ne_nil _ (List.cons_ne_nil z zs)] at hlast
        obtain ⟨w, hw, rfl⟩ := Option.map_eq_some_iff.1 hlast
        exact hends w hw
      · exact .inr ⟨_, List.mem_map.2 ⟨c, List.mem_append_right _ hc, rfl⟩, hfree⟩
  have hmem : ∀ c ∈ z :: zs, c ∈ o.kids r x := by
    intro c hc
    rw [hkids]
    exact List.mem_cons_of_mem _ (List.mem_append_right _ hc)
  cases out with
  | normal => exact hcompletes (.inl h)
  | returned => trivial
  | raised type =>
    obtain ⟨c, hc, hallows⟩ := h
    exact raised_of_kid (by rw [hk]; exact nofun) hreach (hmem c hc) hallows
  | jumped j l t =>
    obtain ⟨c, hc, hallows⟩ := h
    rcases cross_scope hx (by rw [hk]; rfl) (hmem c hc) hallows with
      ⟨hfits, -, rfl⟩ | ⟨hne, hlabel, htarget⟩
    · obtain ⟨rfl, hstops⟩ := eq_unlabeled_of_fits (fun label => by rw [hk]; exact nofun) hfits
      cases j with
      | «break» =>
        rw [beyond_self]
        exact hcompletes (.inr ⟨c, hc, hallows.label⟩)
      | «continue» =>
        rw [hk] at hstops
        cases hstops
    · rw [beyond_of_ne hne]
      exact ⟨by rw [hk]; rfl, hlabel, htarget, by rw [hk]; exact nofun⟩

/-! ## Try statements -/

section Try

variable {b f c : Site × Outline} {cs : List (Site × Outline)}

theorem mem_catches (hc : c ∈ cs) (hcatch : c.2.kind.isCatch = true) :
    o.part r c ∈ Flow.catches (cs.map (o.part r)) :=
  List.mem_filter.2 ⟨List.mem_map.2 ⟨c, hc, rfl⟩, hcatch⟩

theorem completes_of_handled (h : o.AllowsHandled r b cs .normal) :
    ((o.part r b).flow.completes ||
      (Flow.catches (cs.map (o.part r))).any fun q => q.flow.completes) = true := by
  rw [Bool.or_eq_true, List.any_eq_true]
  rcases h with hbody | ⟨c, hc, hcatch, hcompletes⟩
  · exact .inl hbody
  · exact .inr ⟨o.part r c, mem_catches hc hcatch, hcompletes⟩

theorem uncaught_of_handled (h : o.AllowsHandled r b cs (.raised type)) :
    (o.uncaught r b cs).contains type = true := by
  rw [uncaught, PackedSet.contains_foldl_union, PackedSet.contains_retain]
  rcases h with ⟨hbody, hfree⟩ | ⟨c, hc, hcatch, hraised⟩
  · left
    refine ⟨hbody, ?_⟩
    rw [Bool.not_eq_true', List.any_eq_false]
    intro caught hcaught
    obtain ⟨q, hq, hkind⟩ := List.mem_filterMap.1 hcaught
    obtain ⟨c, hc, rfl⟩ := List.mem_map.1 hq
    exact Bool.eq_false_iff.1 (hfree c hc caught hkind)
  · exact .inr ⟨o.part r c, mem_catches hc hcatch, hraised⟩

variable (hk : x.2.kind = .tryCatch)
  (hkids : o.kids r x = b :: cs)

include hk hkids

theorem jumpsOut_of_clause (hz : z ∈ b :: cs) (h : o.JumpsOut r z j l t)
    (hlabel : (labelsOf j (o.part r x).flow).contains l = true) : o.JumpsOut r x j l t := by
  have htarget := h.target
  rw [scopes_kid_of_plain (by rw [hk]; rfl) (hkids ▸ hz)] at htarget
  exact ⟨by rw [hk]; rfl, hlabel, htarget, by rw [hk]; exact nofun⟩

/-- The outcome of the body and its handlers stands, unless a finalizer does not
complete. -/
theorem allows_of_handled (hreach : x.1.reachable = true)
    (hfinal : ∀ last, Flow.finalizer? (cs.map (o.part r)) = some last → last.flow.completes = true)
    (h : o.AllowsHandled r b cs out) : o.Allows r x out := by
  cases out with
  | normal =>
    have hnormal := completes_of_handled h
    change (o.part r x).flow.completes = true
    rw [completes_try hk hkids]
    split
    · rename_i last hlast
      rw [hnormal, hfinal last hlast]
      rfl
    · exact hnormal
  | returned => trivial
  | jumped j l t =>
    obtain ⟨z, hz, hjump⟩ := h
    apply jumpsOut_of_clause hk hkids hz hjump
    have hescaping := escaping_of_kid (hkids ▸ hz) hjump
    rw [labels_try hk hkids]
    split
    · rename_i last hlast
      rw [if_pos (hfinal last hlast)]
      exact hescaping
    · exact hescaping
  | raised type =>
    have huncaught := uncaught_of_handled h
    change (o.part r x).flow.propagated.contains type = true
    rw [propagated_try hk hkids hreach, PackedSet.contains_union, leaving]
    right
    split
    · exact huncaught
    · rename_i last hlast
      rw [if_pos (hfinal last hlast), PackedSet.contains_union]
      exact .inl huncaught

theorem allows_of_override (hreach : x.1.reachable = true) (hf : f ∈ cs)
    (hfinal : Flow.finalizer? (cs.map (o.part r)) = some (o.part r f)) (h : o.Allows r f out)
    (ho : out ≠ .normal) : o.Allows r x out := by
  cases out with
  | normal => exact absurd rfl ho
  | returned => trivial
  | jumped j l t =>
    have hmem : f ∈ b :: cs := List.mem_cons_of_mem b hf
    apply jumpsOut_of_clause hk hkids hmem h
    rw [labels_try hk hkids, hfinal]
    dsimp only
    split
    · exact escaping_of_kid (hkids ▸ hmem) h
    · exact h.label
  | raised type =>
    change (o.part r x).flow.propagated.contains type = true
    rw [propagated_try hk hkids hreach, PackedSet.contains_union, leaving, hfinal]
    right
    dsimp only
    split
    · exact PackedSet.contains_union.2 (.inr h)
    · exact h

end Try

end Outline

end Attribution
