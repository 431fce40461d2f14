import Attribution.Engine.Registry
/-!
# Units in a registry

How registering and settling a unit change the units of a registry. A registry
that has a bucket for each phase and no empty one is `Tidy`; then a phase is
held back exactly if there is a unit of a lower phase.
-/

namespace Attribution.Engine

namespace Registry

variable {ρ : Type} {r : Registry ρ} {u : WorkUnit ρ} {x : Phase × WorkUnit ρ}
  {buckets : List (Phase × List (WorkUnit ρ))} {phase : Phase}

structure Tidy (r : Registry ρ) : Prop where
  ascending : r.buckets.Pairwise fun a b => a.1 < b.1
  occupied : ∀ b ∈ r.buckets, b.2 ≠ []

theorem tidy_empty : (⟨[]⟩ : Registry ρ).Tidy :=
  ⟨List.Pairwise.nil, List.forall_mem_nil _⟩

theorem mem_spread : x ∈ spread buckets ↔ ∃ b ∈ buckets, b.1 = x.1 ∧ x.2 ∈ b.2 := by
  obtain ⟨p, u⟩ := x
  simp only [spread, List.mem_flatMap, List.mem_map, Prod.mk.injEq]
  constructor
  · rintro ⟨b, hb, v, hv, hp, rfl⟩
    exact ⟨b, hb, hp, hv⟩
  · rintro ⟨b, hb, hp, hu⟩
    exact ⟨b, hb, u, hu, hp, rfl⟩

@[simp] theorem spread_cons (b : Phase × List (WorkUnit ρ)) :
    spread (b :: buckets) = b.2.map (b.1, ·) ++ spread buckets :=
  List.flatMap_cons

/-! ## Waiting for lower phases -/

theorem isBlocked_iff : r.isBlocked phase = true ↔ ∃ b ∈ r.buckets, b.1 < phase := by
  simp [isBlocked]

theorem mem_blockers : x ∈ r.blockers phase ↔ x ∈ r.units ∧ x.1 < phase := by
  rw [blockers, units, mem_spread, mem_spread]
  constructor
  · rintro ⟨b, hb, hp, hx⟩
    obtain ⟨hb, hlt⟩ := List.mem_filter.1 hb
    exact ⟨⟨b, hb, hp, hx⟩, hp ▸ of_decide_eq_true hlt⟩
  · rintro ⟨⟨b, hb, hp, hx⟩, hlt⟩
    exact ⟨b, List.mem_filter.2 ⟨hb, decide_eq_true (hp.symm ▸ hlt)⟩, hp, hx⟩

theorem isBlocked_of_mem (hx : x ∈ r.units) (hlt : x.1 < phase) : r.isBlocked phase = true := by
  obtain ⟨b, hb, hp, -⟩ := mem_spread.1 hx
  exact isBlocked_iff.2 ⟨b, hb, hp.symm ▸ hlt⟩

theorem Tidy.exists_of_isBlocked (h : r.Tidy) (hblocked : r.isBlocked phase = true) :
    ∃ x ∈ r.units, x.1 < phase := by
  obtain ⟨b, hb, hlt⟩ := isBlocked_iff.1 hblocked
  obtain ⟨u, hu⟩ := List.exists_mem_of_ne_nil b.2 (h.occupied b hb)
  exact ⟨(b.1, u), mem_spread.2 ⟨b, hb, rfl, hu⟩, hlt⟩

/-! ## A unit is registered -/

theorem mem_put {units : List (WorkUnit ρ)} {v : WorkUnit ρ} (h : v ∈ put u units) :
    v = u ∨ v ∈ units := by
  rcases List.mem_append.1 h with h | h
  · exact .inr (List.mem_filter.1 h).1
  · exact .inl (List.mem_singleton.1 h)

theorem put_of_fresh {units : List (WorkUnit ρ)} (h : ∀ v ∈ units, v.id ≠ u.id) :
    put u units = units ++ [u] := by
  rw [put, List.filter_eq_self.2 fun v hv => bne_iff_ne.2 (h v hv)]

theorem put_ne_nil (units : List (WorkUnit ρ)) : put u units ≠ [] :=
  List.append_ne_nil_of_right_ne_nil _ (List.cons_ne_nil u [])

theorem mem_of_mem_putIn (h : x ∈ spread (putIn phase u buckets)) :
    x = (phase, u) ∨ x ∈ spread buckets := by
  induction buckets with
  | nil => exact .inl (List.mem_singleton.1 h)
  | cons b rest ih =>
    obtain ⟨p, units⟩ := b
    rw [putIn] at h
    split at h
    · rw [spread_cons, List.mem_append] at h ⊢
      rcases h with h | h
      · exact .inr (.inl h)
      · exact (ih h).imp_right .inr
    · split at h
      · next hp =>
        subst hp
        rw [spread_cons, List.mem_append] at h ⊢
        rcases h with h | h
        · obtain ⟨v, hv, rfl⟩ := List.mem_map.1 h
          rcases mem_put hv with rfl | hv
          · exact .inl rfl
          · exact .inr (.inl (List.mem_map.2 ⟨v, hv, rfl⟩))
        · exact .inr (.inr h)
      · rcases List.mem_cons.1 h with h | h
        · exact .inl h
        · exact .inr h

/-- A unit with a new number is added, and nothing is taken away. -/
theorem perm_putIn (h : ∀ y ∈ spread buckets, y.2.id ≠ u.id) :
    (spread (putIn phase u buckets)).Perm ((phase, u) :: spread buckets) := by
  induction buckets with
  | nil => exact List.Perm.refl _
  | cons b rest ih =>
    obtain ⟨p, units⟩ := b
    rw [spread_cons] at h
    rw [putIn]
    split
    · rw [spread_cons, spread_cons]
      exact ((ih fun y hy => h y (List.mem_append_right _ hy)).append_left _).trans
        List.perm_middle
    · split
      · next hp =>
        subst hp
        have hfresh : ∀ v ∈ units, v.id ≠ u.id := fun v hv =>
          h (p, v) (List.mem_append_left _ (List.mem_map.2 ⟨v, hv, rfl⟩))
        rw [spread_cons, spread_cons, put_of_fresh hfresh, List.map_append, List.append_assoc]
        exact List.perm_middle
      · exact List.Perm.refl _

theorem mem_of_mem_register (h : x ∈ (r.register u).units) :
    (u.phase = some x.1 ∧ u = x.2) ∨ x ∈ r.units := by
  unfold register at h
  split at h
  · next phase hphase =>
    rcases mem_of_mem_putIn h with rfl | h
    · exact .inl ⟨hphase, rfl⟩
    · exact .inr h
  · exact .inr h

theorem perm_register (h : ∀ y ∈ r.units, y.2.id ≠ u.id) :
    (r.register u).units.Perm ((u.phase.map (·, u)).toList ++ r.units) := by
  unfold register
  split
  · next phase hphase =>
    rw [hphase]
    exact perm_putIn h
  · next hphase =>
    rw [hphase]
    exact List.Perm.refl _

theorem phase_of_mem_putIn {b : Phase × List (WorkUnit ρ)} (h : b ∈ putIn phase u buckets) :
    b.1 = phase ∨ ∃ c ∈ buckets, c.1 = b.1 := by
  induction buckets with
  | nil =>
    rw [List.mem_singleton.1 h]
    exact .inl rfl
  | cons first rest ih =>
    obtain ⟨p, units⟩ := first
    rw [putIn] at h
    split at h
    · rcases List.mem_cons.1 h with rfl | h
      · exact .inr ⟨_, List.mem_cons_self, rfl⟩
      · obtain hb | ⟨c, hc, hb⟩ := ih h
        · exact .inl hb
        · exact .inr ⟨c, List.mem_cons_of_mem _ hc, hb⟩
    · split at h
      · next hp =>
        rcases List.mem_cons.1 h with rfl | h
        · exact .inl hp
        · exact .inr ⟨b, List.mem_cons_of_mem _ h, rfl⟩
      · rcases List.mem_cons.1 h with rfl | h
        · exact .inl rfl
        · exact .inr ⟨b, h, rfl⟩

theorem pairwise_putIn (h : buckets.Pairwise fun a b => a.1 < b.1) :
    (putIn phase u buckets).Pairwise fun a b => a.1 < b.1 := by
  induction buckets with
  | nil => exact List.pairwise_singleton _ _
  | cons b rest ih =>
    obtain ⟨p, units⟩ := b
    obtain ⟨hfirst, hrest⟩ := List.pairwise_cons.1 h
    rw [putIn]
    split
    · next hlt =>
      refine List.pairwise_cons.2 ⟨fun b hb => ?_, ih hrest⟩
      rcases phase_of_mem_putIn hb with hb | ⟨c, hc, hb⟩
      · exact hb ▸ hlt
      · exact hb ▸ hfirst c hc
    · split
      · exact List.pairwise_cons.2 ⟨hfirst, hrest⟩
      · next hle hne =>
        have hlt : phase < p := Nat.lt_of_le_of_ne (Nat.not_lt.1 hle) (Ne.symm hne)
        refine List.pairwise_cons.2 ⟨fun b hb => ?_, h⟩
        rcases List.mem_cons.1 hb with rfl | hb
        · exact hlt
        · exact Nat.lt_trans hlt (hfirst b hb)

theorem Tidy.register (h : r.Tidy) (u : WorkUnit ρ) : (r.register u).Tidy := by
  unfold Registry.register
  split
  · refine ⟨pairwise_putIn h.ascending, ?_⟩
    have hoccupied := h.occupied
    generalize r.buckets = buckets at hoccupied
    induction buckets with
    | nil => exact List.forall_mem_singleton.2 (put_ne_nil [])
    | cons b rest ih =>
      obtain ⟨p, units⟩ := b
      obtain ⟨hfirst, hrest⟩ := List.forall_mem_cons.1 hoccupied
      rw [putIn]
      split
      · exact List.forall_mem_cons.2 ⟨hfirst, ih hrest⟩
      · split
        · exact List.forall_mem_cons.2 ⟨put_ne_nil units, hrest⟩
        · exact List.forall_mem_cons.2 ⟨put_ne_nil [], hoccupied⟩
  · exact h

/-! ## A unit has ended -/

theorem mem_settle {b : Phase × List (WorkUnit ρ)} : b ∈ (r.settle u).buckets ↔
    (b ∈ r.buckets ∧ u.phase ≠ some b.1) ∨
      b.2 ≠ [] ∧ u.phase = some b.1 ∧ ∃ units, (b.1, units) ∈ r.buckets ∧
        b.2 = units.filter fun v => v.id != u.id := by
  obtain ⟨q, left⟩ := b
  unfold settle
  split
  · next phase hphase =>
    simp only [hphase, List.mem_filterMap, Option.some.injEq, ne_eq]
    constructor
    · rintro ⟨⟨p, units⟩, hb, h⟩
      dsimp only at h
      split at h
      · next hp =>
        subst hp
        split at h
        · cases h
        · next hne =>
          cases h
          exact .inr ⟨hne, rfl, units, hb, rfl⟩
      · next hp =>
        cases h
        exact .inl ⟨hb, fun heq => hp heq.symm⟩
    · rintro (⟨hb, hp⟩ | ⟨hne, rfl, units, hb, rfl⟩)
      · exact ⟨_, hb, if_neg fun heq => hp heq.symm⟩
      · refine ⟨_, hb, ?_⟩
        dsimp only
        rw [if_pos rfl]
        split
        · next hnil => exact absurd hnil hne
        · rfl
  · next hphase => simp [hphase]

theorem mem_units_settle : x ∈ (r.settle u).units ↔
    x ∈ r.units ∧ ¬(u.phase = some x.1 ∧ x.2.id = u.id) := by
  rw [units, units, mem_spread, mem_spread]
  constructor
  · rintro ⟨b, hb, hp, hx⟩
    rcases mem_settle.1 hb with ⟨hb, hphase⟩ | ⟨-, -, units, hb, hleft⟩
    · exact ⟨⟨b, hb, hp, hx⟩, fun h => hphase (hp ▸ h.1)⟩
    · rw [hleft] at hx
      obtain ⟨hx, hid⟩ := List.mem_filter.1 hx
      exact ⟨⟨_, hb, hp, hx⟩, fun h => bne_iff_ne.1 hid h.2⟩
  · rintro ⟨⟨b, hb, hp, hx⟩, hnot⟩
    by_cases hphase : u.phase = some b.1
    · have hid : x.2.id ≠ u.id := fun hid => hnot ⟨hp ▸ hphase, hid⟩
      have hleft : x.2 ∈ b.2.filter fun v => v.id != u.id :=
        List.mem_filter.2 ⟨hx, bne_iff_ne.2 hid⟩
      exact ⟨(b.1, _), mem_settle.2 (.inr ⟨List.ne_nil_of_mem hleft, hphase, b.2, hb, rfl⟩), hp, hleft⟩
    · exact ⟨b, mem_settle.2 (.inl ⟨hb, hphase⟩), hp, hx⟩

theorem sublist_settle (r : Registry ρ) (u : WorkUnit ρ) : (r.settle u).units.Sublist r.units := by
  unfold settle
  split
  · next phase hphase =>
    unfold units
    dsimp only
    induction r.buckets with
    | nil => exact List.Sublist.refl _
    | cons b rest ih =>
      obtain ⟨p, units⟩ := b
      rw [List.filterMap_cons]
      dsimp only
      split
      · exact ih.trans (List.sublist_append_right _ _)
      · next left hleft =>
        have hkept : left.1 = p ∧ left.2.Sublist units := by
          split at hleft
          · split at hleft
            · cases hleft
            · cases hleft
              exact ⟨rfl, List.filter_sublist⟩
          · cases hleft
            exact ⟨rfl, List.Sublist.refl _⟩
        rw [spread_cons, spread_cons, hkept.1]
        exact (hkept.2.map _).append ih
  · exact List.Sublist.refl _

theorem Tidy.settle (h : r.Tidy) (u : WorkUnit ρ) : (r.settle u).Tidy where
  ascending := by
    unfold Registry.settle
    split
    · refine List.Pairwise.filterMap _ (fun a b hab c hc d hd => ?_) h.ascending
      grind
    · exact h.ascending
  occupied b hb := by
    rcases mem_settle.1 hb with ⟨hb, -⟩ | ⟨hne, -⟩
    · exact h.occupied b hb
    · exact hne

end Registry

end Attribution.Engine
