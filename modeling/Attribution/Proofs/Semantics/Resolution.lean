import Attribution.Proofs.Semantics.Origin
/-!
# Jump resolution

Where a jump leads, said by the statements around it in the tree (`Resolves`), and
that the tree stores just that (`jump?_iff_resolves`). A site carries the scopes
around its node as a list, which has the ancestors that are scopes in the order of
the lineage: what is found first in it is the nearest ancestor of that kind
(`find?_scopes`).
-/

namespace Attribution

namespace Tree

def Encloses (t : Tree) (a id : NodeId) : Prop :=
  a ∈ t.lineage id ∧ a ≠ id

/-- `a` is the nearest proper ancestor of `id` among those of a kind in `P`. -/
structure Nearest (t : Tree) (P : NodeKind → Prop) (id a : NodeId) : Prop where
  encloses : t.Encloses a id
  ofKind : ∃ kind, t.kind? a = some kind ∧ P kind
  innermost : ∀ b kind, t.Encloses b id → t.kind? b = some kind → P kind → b ∈ t.lineage a

def Outside (t : Tree) (P : NodeKind → Prop) (id : NodeId) : Prop :=
  ∀ a kind, t.Encloses a id → t.kind? a = some kind → ¬P kind

def HoldsLoop (t : Tree) (a : NodeId) : Prop :=
  ∃ kind body, t.Has a kind [body] ∧
    (t.kind? body = some .whileLoop ∨ t.kind? body = some .doWhile)

/-- Where a jump at `id` leads. -/
inductive Resolves (t : Tree) (id : NodeId) : NodeKind → JumpTarget → Prop where
  | breakTo {a : NodeId} :
    t.Nearest (· ∈ [.whileLoop, .doWhile, .switch]) id a → Resolves t id (.breakTo none) (.ok a)
  | breakOutside :
    t.Outside (· ∈ [.whileLoop, .doWhile, .switch]) id →
    Resolves t id (.breakTo none) (.error .breakOutside)
  | continueTo {a : NodeId} :
    t.Nearest (· ∈ [.whileLoop, .doWhile]) id a → Resolves t id (.continueTo none) (.ok a)
  | continueOutside :
    t.Outside (· ∈ [.whileLoop, .doWhile]) id →
    Resolves t id (.continueTo none) (.error .continueOutside)
  | breakLabel {label : String} {a : NodeId} :
    t.Nearest (· = .labeled label) id a → Resolves t id (.breakTo (some label)) (.ok a)
  | breakUndefined {label : String} :
    t.Outside (· = .labeled label) id →
    Resolves t id (.breakTo (some label)) (.error (.undefinedLabel label))
  | continueLabel {label : String} {a : NodeId} :
    t.Nearest (· = .labeled label) id a → t.HoldsLoop a →
    Resolves t id (.continueTo (some label)) (.ok a)
  | notALoop {label : String} {a : NodeId} :
    t.Nearest (· = .labeled label) id a → ¬t.HoldsLoop a →
    Resolves t id (.continueTo (some label)) (.error (.notALoop label))
  | continueUndefined {label : String} :
    t.Outside (· = .labeled label) id →
    Resolves t id (.continueTo (some label)) (.error (.undefinedLabel label))

variable {t : Tree} {P : NodeKind → Prop} {id a b : NodeId} {kind : NodeKind}
  {target target' : JumpTarget}

theorem Nearest.unique (ha : t.Nearest P id a) (hb : t.Nearest P id b) : a = b := by
  obtain ⟨kind, hkind, hP⟩ := ha.ofKind
  obtain ⟨kind', hkind', hP'⟩ := hb.ofKind
  have hle := le_of_mem_lineage (hb.innermost a kind ha.encloses hkind hP)
  have hge := le_of_mem_lineage (ha.innermost b kind' hb.encloses hkind' hP')
  exact Nat.le_antisymm hle hge

theorem Nearest.not_outside (h : t.Nearest P id a) : ¬t.Outside P id := by
  intro hout
  obtain ⟨kind, hkind, hP⟩ := h.ofKind
  exact hout a kind h.encloses hkind hP

theorem Resolves.unique (h : t.Resolves id kind target) (h' : t.Resolves id kind target') :
    target = target' := by
  cases h with
  | breakTo hnear =>
    cases h' with
    | breakTo hnear' => rw [hnear.unique hnear']
    | breakOutside hout => exact absurd hout hnear.not_outside
  | breakOutside hout =>
    cases h' with
    | breakTo hnear => exact absurd hout hnear.not_outside
    | breakOutside => rfl
  | continueTo hnear =>
    cases h' with
    | continueTo hnear' => rw [hnear.unique hnear']
    | continueOutside hout => exact absurd hout hnear.not_outside
  | continueOutside hout =>
    cases h' with
    | continueTo hnear => exact absurd hout hnear.not_outside
    | continueOutside => rfl
  | breakLabel hnear =>
    cases h' with
    | breakLabel hnear' => rw [hnear.unique hnear']
    | breakUndefined hout => exact absurd hout hnear.not_outside
  | breakUndefined hout =>
    cases h' with
    | breakLabel hnear => exact absurd hout hnear.not_outside
    | breakUndefined => rfl
  | continueLabel hnear hloop =>
    cases h' with
    | continueLabel hnear' => rw [hnear.unique hnear']
    | notALoop hnear' hloop' =>
      rw [← hnear.unique hnear'] at hloop'
      exact absurd hloop hloop'
    | continueUndefined hout => exact absurd hout hnear.not_outside
  | notALoop hnear hloop =>
    cases h' with
    | continueLabel hnear' hloop' =>
      rw [← hnear.unique hnear'] at hloop'
      exact absurd hloop' hloop
    | notALoop => rfl
    | continueUndefined hout => exact absurd hout hnear.not_outside
  | continueUndefined hout =>
    cases h' with
    | continueLabel hnear | notALoop hnear => exact absurd hout hnear.not_outside
    | continueUndefined => rfl

theorem Resolves.isJump (h : t.Resolves id kind target) :
    ∃ label, kind = .breakTo label ∨ kind = .continueTo label := by
  cases h with
  | breakTo | breakOutside => exact ⟨none, .inl rfl⟩
  | continueTo | continueOutside => exact ⟨none, .inr rfl⟩
  | breakLabel | breakUndefined => exact ⟨some _, .inl rfl⟩
  | continueLabel | notALoop | continueUndefined => exact ⟨some _, .inr rfl⟩

end Tree

namespace Outline

variable {o : Outline} {r : RuleProvider} {x y : Site × Outline} {P : NodeKind → Prop}
  {a : NodeId}

/-! ## From a node to its children -/

theorem encloses_kid_iff (hy : y ∈ o.table r) (hx : x ∈ o.kids r y) :
    (Tree.ofOutline o).Encloses a x.1.id ↔ a ∈ (Tree.ofOutline o).lineage y.1.id := by
  rw [Tree.Encloses, lineage_of_mem_kids hy hx, List.mem_cons]
  have hlt : y.1.id < x.1.id := lt_of_mem_offspring hx
  constructor
  · rintro ⟨rfl | hmem, hne⟩
    · exact absurd rfl hne
    · exact hmem
  · intro hmem
    have hle := Tree.le_of_mem_lineage hmem
    exact ⟨.inr hmem, Nat.ne_of_lt (Nat.lt_of_le_of_lt hle hlt)⟩

theorem mem_lineage_self (hy : y ∈ o.table r) :
    y.1.id ∈ (Tree.ofOutline o).lineage y.1.id :=
  (mem_lineage_iff hy hy).2 (self_mem_subtree y)

theorem nearest_kid (hy : y ∈ o.table r) (hx : x ∈ o.kids r y) (hP : P y.2.kind) :
    (Tree.ofOutline o).Nearest P x.1.id y.1.id where
  encloses := (encloses_kid_iff hy hx).2 (mem_lineage_self hy)
  ofKind := ⟨y.2.kind, kind?_of_mem hy, hP⟩
  innermost := fun _ _ hb _ _ => (encloses_kid_iff hy hx).1 hb

/-- What is not of a kind in `P` can be left out of the ancestors. -/
theorem encloses_of_encloses_kid (hy : y ∈ o.table r) (hx : x ∈ o.kids r y) (hP : ¬P y.2.kind)
    {kind : NodeKind} (h : (Tree.ofOutline o).Encloses a x.1.id)
    (hkind : (Tree.ofOutline o).kind? a = some kind) (ha : P kind) :
    (Tree.ofOutline o).Encloses a y.1.id := by
  refine ⟨(encloses_kid_iff hy hx).1 h, ?_⟩
  rintro rfl
  have hk : some y.2.kind = some kind := (kind?_of_mem hy).symm.trans hkind
  exact hP (Option.some.inj hk ▸ ha)

theorem nearest_kid_of_not (hy : y ∈ o.table r) (hx : x ∈ o.kids r y) (hP : ¬P y.2.kind)
    (h : (Tree.ofOutline o).Nearest P y.1.id a) : (Tree.ofOutline o).Nearest P x.1.id a where
  encloses := (encloses_kid_iff hy hx).2 h.encloses.1
  ofKind := h.ofKind
  innermost := fun b kind hb hkind hk =>
    h.innermost b kind (encloses_of_encloses_kid hy hx hP hb hkind hk) hkind hk

theorem outside_kid (hy : y ∈ o.table r) (hx : x ∈ o.kids r y) (hP : ¬P y.2.kind)
    (h : (Tree.ofOutline o).Outside P y.1.id) : (Tree.ofOutline o).Outside P x.1.id :=
  fun b kind hb hkind hk =>
    h b kind (encloses_of_encloses_kid hy hx hP hb hkind hk) hkind hk

theorem outside_root (hx : (root, o) ∈ o.table r) :
    (Tree.ofOutline o).Outside P root.id := by
  intro b kind hb
  have hparent : (Tree.ofOutline o).parent? root.id = none := parent?_root hx
  obtain ⟨hmem, hne⟩ := hb
  rw [Tree.lineage, hparent, List.mem_singleton] at hmem
  exact absurd hmem hne

/-- The first scope of a kind is the nearest ancestor of that kind. -/
theorem find?_scopes {p : Scope → Bool}
    (hp : ∀ x : Site × Outline, p (scopeAt x) = true ↔ P x.2.kind)
    (hP : ∀ kind, P kind → kind.isScope = true) (hx : x ∈ o.table r) :
    (∃ y ∈ o.table r, x.1.scopes.find? p = some (scopeAt y) ∧ P y.2.kind ∧
      (Tree.ofOutline o).Nearest P x.1.id y.1.id) ∨
    x.1.scopes.find? p = none ∧ (Tree.ofOutline o).Outside P x.1.id := by
  -- Down the tree: a child sees its parent first, if that is a scope, then what its parent sees.
  induction hid : x.1.id using Nat.strongRecOn generalizing x with
  | _ id ih =>
    subst hid
    rcases eq_root_or_mem_offspring o hx with rfl | ⟨y, hy, hmem⟩
    · exact .inr ⟨rfl, outside_root hx⟩
    · by_cases hkind : P y.2.kind
      · refine .inl ⟨y, hy, ?_, hkind, nearest_kid hy hmem hkind⟩
        rw [scopes_kid_of_scope (hP _ hkind) hmem, List.find?_cons_of_pos ((hp y).2 hkind)]
      · have hfind : x.1.scopes.find? p = y.1.scopes.find? p := by
          cases hscope : y.2.kind.isScope with
          | false => rw [scopes_kid_of_plain hscope hmem]
          | true =>
            rw [scopes_kid_of_scope hscope hmem,
              List.find?_cons_of_neg (fun h => hkind ((hp y).1 h))]
        rw [hfind]
        rcases ih y.1.id (lt_of_mem_offspring hmem) hy rfl with
          ⟨z, hz, hget, hPz, hnear⟩ | ⟨hnone, hout⟩
        · exact .inl ⟨z, hz, hget, hPz, nearest_kid_of_not hy hmem hkind hnear⟩
        · exact .inr ⟨hnone, outside_kid hy hmem hkind hout⟩

/-! ## The three searches -/

theorem isBreakable_scopeAt (x : Site × Outline) :
    (scopeAt x).isBreakable = true ↔ x.2.kind ∈ [.whileLoop, .doWhile, .switch] := by
  rw [Scope.isBreakable, scopeAt]
  cases x.2.kind <;> simp [NodeKind.isLoop]

theorem isLoop_scopeAt (x : Site × Outline) :
    (scopeAt x).kind.isLoop = true ↔ x.2.kind ∈ [.whileLoop, .doWhile] := by
  rw [scopeAt]
  cases x.2.kind <;> simp [NodeKind.isLoop]

theorem isLabeled_scopeAt (label : String) (x : Site × Outline) :
    (scopeAt x).isLabeled label = true ↔ x.2.kind = .labeled label := by
  rw [Scope.isLabeled, scopeAt, beq_iff_eq]

theorem find?_scopes_labeled (label : String) (hx : x ∈ o.table r) :
    (∃ y ∈ o.table r, x.1.scopes.find? (Scope.isLabeled label) = some (scopeAt y) ∧
      y.2.kind = .labeled label ∧
      (Tree.ofOutline o).Nearest (· = .labeled label) x.1.id y.1.id) ∨
    x.1.scopes.find? (Scope.isLabeled label) = none ∧
      (Tree.ofOutline o).Outside (· = .labeled label) x.1.id :=
  find?_scopes (P := (· = .labeled label)) (isLabeled_scopeAt label) (by rintro kind rfl; rfl) hx

theorem holdsLoop_scopeAt (hs : o.Shaped) (hy : y ∈ o.table r) {label : String}
    (hk : y.2.kind = .labeled label) :
    (scopeAt y).holdsLoop = true ↔ (Tree.ofOutline o).HoldsLoop y.1.id := by
  have hfits := fits_of_mem o hs hy
  rw [hk] at hfits
  obtain ⟨c, hc⟩ : ∃ c, y.2.children = [c] := hfits
  obtain ⟨z, hkids⟩ := kids_eq_singleton (o := o) (r := r) hc
  have hz : z ∈ o.table r := mem_table_of_mem_offspring hy (hkids ▸ List.mem_singleton_self z)
  have hbody : z.2 = c := by
    have hmap := map_snd_kids (o := o) (r := r) y
    rw [hkids, hc] at hmap
    exact List.singleton_inj.1 hmap
  have hloop : (scopeAt y).holdsLoop = z.2.kind.isLoop := by
    rw [scopeAt, hc, hbody]
    rfl
  have hkind : (Tree.ofOutline o).kind? z.1.id = some z.2.kind := kind?_of_mem hz
  rw [hloop]
  constructor
  · intro h
    refine ⟨y.2.kind, z.1.id, ⟨nodeAt y, node?_subject hy, rfl, ?_⟩, ?_⟩
    · rw [children_nodeAt _ (o.subject r) y]
      exact congrArg (List.map _) hkids
    · rw [hkind]
      cases hzk : z.2.kind with
      | whileLoop => exact .inl rfl
      | doWhile => exact .inr rfl
      | _ =>
        rw [hzk] at h
        cases h
  · rintro ⟨kind, body, hhas, hbodyKind⟩
    have hids := (has_of_mem hy hhas).2
    rw [hkids, List.map_singleton, List.singleton_inj] at hids
    rw [← hids, hkind] at hbodyKind
    rcases hbodyKind with h | h
    · rw [Option.some.inj h]
      rfl
    · rw [Option.some.inj h]
      rfl

/-- What the scopes around a node say of a jump is what the tree says. -/
theorem resolves_of_resolveJump (hs : o.Shaped) (hx : x ∈ o.table r) {target : JumpTarget}
    (h : resolveJump x.1.scopes x.2.kind = some target) :
    (Tree.ofOutline o).Resolves x.1.id x.2.kind target := by
  cases hk : x.2.kind with
  | breakTo label =>
    rw [hk] at h
    cases label with
    | none =>
      have hsearch := find?_scopes (P := (· ∈ [.whileLoop, .doWhile, .switch])) isBreakable_scopeAt
        (by simp +contextual [NodeKind.isScope]) hx
      rcases hsearch with ⟨y, hy, hfind, -, hnear⟩ | ⟨hfind, hout⟩
      · rw [resolveJump, hfind] at h
        obtain rfl := Option.some.inj h
        exact .breakTo hnear
      · rw [resolveJump, hfind] at h
        obtain rfl := Option.some.inj h
        exact .breakOutside hout
    | some label =>
      rcases find?_scopes_labeled label hx with ⟨y, hy, hfind, -, hnear⟩ | ⟨hfind, hout⟩
      · rw [resolveJump, hfind] at h
        obtain rfl := Option.some.inj h
        exact .breakLabel hnear
      · rw [resolveJump, hfind] at h
        obtain rfl := Option.some.inj h
        exact .breakUndefined hout
  | continueTo label =>
    rw [hk] at h
    cases label with
    | none =>
      have hsearch := find?_scopes (p := fun s => s.kind.isLoop) (P := (· ∈ [.whileLoop, .doWhile]))
        isLoop_scopeAt (by simp +contextual [NodeKind.isScope]) hx
      rcases hsearch with ⟨y, hy, hfind, -, hnear⟩ | ⟨hfind, hout⟩
      · rw [resolveJump, hfind] at h
        obtain rfl := Option.some.inj h
        exact .continueTo hnear
      · rw [resolveJump, hfind] at h
        obtain rfl := Option.some.inj h
        exact .continueOutside hout
    | some label =>
      rcases find?_scopes_labeled label hx with ⟨y, hy, hfind, hkind, hnear⟩ | ⟨hfind, hout⟩
      · have hloop := holdsLoop_scopeAt hs hy hkind
        simp only [resolveJump, hfind, Option.some.injEq] at h
        split at h
        · rename_i hholds
          subst h
          exact .continueLabel hnear (hloop.1 hholds)
        · rename_i hholds
          subst h
          exact .notALoop hnear fun hh => hholds (hloop.2 hh)
      · rw [resolveJump, hfind] at h
        obtain rfl := Option.some.inj h
        exact .continueUndefined hout
  | _ =>
    rw [hk] at h
    cases h

theorem resolveJump_isSome_iff {scopes : List Scope} {kind : NodeKind} :
    (resolveJump scopes kind).isSome = true ↔
      ∃ label, kind = .breakTo label ∨ kind = .continueTo label := by
  cases kind with
  | breakTo label => cases label <;> simp [resolveJump]
  | continueTo label => cases label <;> simp [resolveJump]
  | _ => simp [resolveJump]

end Outline

theorem Tree.jump?_eq_none_of_le {o : Outline} {id : NodeId} (h : (Tree.ofOutline o).size ≤ id) :
    (Tree.ofOutline o).jump? id = none := by
  have hlength : (o.jumps [] 0).length = o.size := by
    have hmap := congrArg List.length (Outline.jumps_eq_map (κ := fun _ => none)
      (s := ⟨Tree.ofOutline o, ({} : Rules)⟩) Outline.root o)
    rw [List.length_map, Outline.length_sites] at hmap
    exact hmap
  rw [Tree.size_ofOutline, ← hlength] at h
  rw [Tree.jump?, Tree.ofOutline]
  simp [List.getElem?_eq_none h]

/-- The tree stores a jump target for the breaks and continues of a program, and it is
where the statements around the jump lead it. -/
theorem Stmt.jump?_iff_resolves (program : Stmt) (id : NodeId) :
    (((Tree.ofProgram program).jump? id).isSome = true ↔
      ∃ label, (Tree.ofProgram program).kind? id = some (.breakTo label) ∨
        (Tree.ofProgram program).kind? id = some (.continueTo label)) ∧
    ∀ target, (Tree.ofProgram program).jump? id = some target ↔
      ∃ kind, (Tree.ofProgram program).kind? id = some kind ∧
        (Tree.ofProgram program).Resolves id kind target := by
  by_cases hid : id < (Tree.ofProgram program).size
  · rw [Tree.ofProgram, Tree.size_ofOutline] at hid
    obtain ⟨x, hx, rfl⟩ := Outline.exists_mem_table (({} : Rules) : RuleProvider) hid
    have hkind : (Tree.ofProgram program).kind? x.1.id = some x.2.kind := kind?_of_mem hx
    have hjump : (Tree.ofProgram program).jump? x.1.id = resolveJump x.1.scopes x.2.kind :=
      Tree.jump?_of_mem hx
    have hsome : ((Tree.ofProgram program).jump? x.1.id).isSome = true ↔
        ∃ label, x.2.kind = .breakTo label ∨ x.2.kind = .continueTo label := by
      rw [hjump, Outline.resolveJump_isSome_iff]
    have hsound {target : JumpTarget} (h : (Tree.ofProgram program).jump? x.1.id = some target) :
        (Tree.ofProgram program).Resolves x.1.id x.2.kind target :=
      Outline.resolves_of_resolveJump (program.shaped_outline 0) hx (hjump.symm.trans h)
    refine ⟨by simp only [hsome, hkind, Option.some.injEq], fun target => ?_⟩
    constructor
    · exact fun h => ⟨x.2.kind, hkind, hsound h⟩
    · rintro ⟨kind, hk, hresolves⟩
      rw [hkind] at hk
      obtain rfl := Option.some.inj hk
      obtain ⟨found, hfound⟩ := Option.isSome_iff_exists.1 (hsome.2 hresolves.isJump)
      rw [hfound, (hsound hfound).unique hresolves]
  · have hjump : (Tree.ofProgram program).jump? id = none :=
      Tree.jump?_eq_none_of_le (Nat.le_of_not_lt hid)
    have hkind : (Tree.ofProgram program).kind? id = none := by
      rw [Tree.kind?, Tree.node?, Array.getElem?_eq_none (Nat.le_of_not_lt hid)]
      rfl
    simp [hjump, hkind]

-- The inner label hides the outer one, which does hold a loop.
example : (Tree.ofProgram (.labeled "l" (.whileLoop (.bool true) (.labeled "l"
    (.block [.continueTo (some "l")]))))).jump? 5 = some (.error (.notALoop "l")) := by
  decide

end Attribution
