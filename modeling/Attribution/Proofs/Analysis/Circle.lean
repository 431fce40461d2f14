import Attribution.Proofs.Analysis.Audit
import Attribution.Proofs.Reference.Cycle
/-!
# Who is to blame for a circle

A constant is to blame if its resolver has failed or is going to, which is what the
reader of a unit on the stack does. `Circles` says how those constants and the reports of
circles belong together: each has been reported once, each is on a cycle, and whoever has
been found although it depends on others has been told about the circles among them
(`Traced`). Between the answer that closes a circle and the failure of the reader, the
reader is accused.

In a ring there is never a second one to blame. A constant that is going to fail has
an operand below it on the stack (`Barred`), so the way round the ring is blocked there as
long as it is on the stack.
-/

namespace Attribution

open Engine

namespace Scene

variable (g : Scene)

def tree : Tree :=
  .ofOutline g.outline

/-- It is known what has become of the constant: somebody in its component is to blame, or
it has been found and is on no cycle. -/
def Traced (verdict? : NodeId → Option Bool) (id : NodeId) : Prop :=
  (∃ m, verdict? m = some false ∧ g.tree.Entangled id m) ∨
    (verdict? id = some true ∧ ¬g.tree.OnCycle id)

/-- The node has an operand on the stack that leads back to it. -/
def Closes (frames : List (Frame Attribute.schema)) (id : NodeId) : Prop :=
  ∃ e ∈ frames, e.cell.family = .standard .constant ∧ g.tree.Depends id e.cell.node ∧
    g.tree.Entangled id e.cell.node

/-- Each constant that is going to fail has such an operand at its place or below. -/
def Barred : List (Frame Attribute.schema) → Prop
  | [] => True
  | f :: rest => (f.cell.family = .standard .constant → f.doomed = true →
    g.Closes (f :: rest) f.cell.node) ∧ Barred rest

/-- The node has closed a circle and is going to be blamed. -/
structure Accused (verdict? : NodeId → Option Bool) (frames : List (Frame Attribute.schema))
    (id : NodeId) : Prop where
  closes : g.Closes frames id
  single : g.tree.Ring id → ∀ m, verdict? m = some false → g.tree.Entangled id m → m = id

structure Circles (verdict? : NodeId → Option Bool) (reports : List Diagnostic)
    (frames : List (Frame Attribute.schema)) (blame : Option NodeId) : Prop where
  told : ∃ culprits : List NodeId, culprits.Nodup ∧
    (∀ id, id ∈ culprits ↔ verdict? id = some false) ∧
    reports = culprits.map (g.outline.subject g.rules).circle
  onCycle : ∀ id, verdict? id = some false → g.tree.OnCycle id
  followed : ∀ id, verdict? id = some true → ∀ dep, g.tree.Depends id dep → g.Traced verdict? dep
  tied : ∀ f ∈ frames, f.head.isSome = true →
    ∃ m, (verdict? m = some false ∨ blame = some m) ∧ g.tree.Entangled f.cell.node m
  single : ∀ id m, verdict? id = some false → verdict? m = some false →
    g.tree.Entangled id m → g.tree.Ring id → m = id
  barred : g.Barred frames
  accused : ∀ id, blame = some id → g.Accused verdict? frames id

variable {g} {verdict? verdict?' : NodeId → Option Bool} {reports : List Diagnostic}
  {frames above below : List (Frame Attribute.schema)} {f e : Frame Attribute.schema}
  {blame : Option NodeId} {id m : NodeId}

theorem Traced.mono (h : g.Traced verdict? id)
    (hmono : ∀ m b, verdict? m = some b → verdict?' m = some b) : g.Traced verdict?' id := by
  rcases h with ⟨m, hm, he⟩ | ⟨hid, hoff⟩
  · exact .inl ⟨m, hmono m false hm, he⟩
  · exact .inr ⟨hmono id true hid, hoff⟩

theorem Closes.mono (h : g.Closes frames id)
    (hsub : ∀ e ∈ frames, ∃ e' ∈ above, e'.cell = e.cell) : g.Closes above id := by
  obtain ⟨e, he, hconst, hd, hent⟩ := h
  obtain ⟨e', he', hcell⟩ := hsub e he
  rw [← hcell] at hconst hd hent
  exact ⟨e', he', hconst, hd, hent⟩

theorem Closes.onCycle (h : g.Closes frames id) : g.tree.OnCycle id := by
  obtain ⟨e, -, -, hd, hent⟩ := h
  exact .head' hd hent.2

/-! ## Changes of the stack -/

theorem Barred.of_append (h : g.Barred (above ++ frames)) : g.Barred frames := by
  induction above with
  | nil => exact h
  | cons t rest ih => exact ih h.2

theorem Barred.map {index : Nat} (h : g.Barred (above ++ frames)) :
    g.Barred (above.map (Frame.joinCycle index) ++ frames) := by
  induction above with
  | nil => exact h
  | cons t rest ih =>
    have hcells : ∀ e ∈ t :: rest ++ frames,
        ∃ e' ∈ (t :: rest).map (Frame.joinCycle index) ++ frames, e'.cell = e.cell := by
      intro e he
      rcases List.mem_append.1 he with he | he
      · exact ⟨e.joinCycle index, List.mem_append_left _ (List.mem_map_of_mem he), rfl⟩
      · exact ⟨e, List.mem_append_right _ he, rfl⟩
    exact ⟨fun hconst hdoomed => (h.1 hconst hdoomed).mono hcells, ih h.2⟩

namespace Circles

theorem traced (h : g.Circles verdict? reports frames blame) {b : Bool}
    (hid : verdict? id = some b) : g.Traced verdict? id := by
  cases b with
  | false => exact .inl ⟨id, hid, .refl id⟩
  | true =>
    by_cases hcycle : g.tree.OnCycle id
    · -- The cycle goes on through an operand, which is on it too.
      obtain ⟨dep, hd, he⟩ := hcycle.exists_depends
      rcases h.followed id hid dep hd with ⟨m, hm, he'⟩ | ⟨-, hoff⟩
      · exact .inl ⟨m, hm, he.trans he'⟩
      · exact absurd (hcycle.of_entangled he) hoff
    · exact .inr ⟨hid, hcycle⟩

theorem push (h : g.Circles verdict? reports frames none) (hhead : f.head = none)
    (hdoomed : f.doomed = false) : g.Circles verdict? reports (f :: frames) none where
  told := h.told
  onCycle := h.onCycle
  followed := h.followed
  tied e he hsome := by
    rcases List.mem_cons.1 he with rfl | he
    · rw [hhead] at hsome
      cases hsome
    · exact h.tied e he hsome
  single := h.single
  barred := by
    refine ⟨fun _ hd => ?_, h.barred⟩
    rw [hdoomed] at hd
    cases hd
  accused _ := nofun

theorem pop (h : g.Circles verdict? reports (f :: frames) none) :
    g.Circles verdict? reports frames none where
  told := h.told
  onCycle := h.onCycle
  followed := h.followed
  tied e he := h.tied e (List.mem_cons_of_mem _ he)
  single := h.single
  barred := h.barred.2
  accused _ := nofun

theorem doom (h : g.Circles verdict? reports (f :: frames) none)
    (hf : f.cell.family ≠ .standard .constant) :
    g.Circles verdict? reports ({ f with doomed := true } :: frames) none where
  told := h.told
  onCycle := h.onCycle
  followed := h.followed
  tied e he hsome := by
    rcases List.mem_cons.1 he with rfl | he
    · exact h.tied f List.mem_cons_self hsome
    · exact h.tied e (List.mem_cons_of_mem _ he) hsome
  single := h.single
  barred := ⟨fun hconst _ => absurd hconst hf, h.barred.2⟩
  accused _ := nofun

/-! ## Verdicts -/

theorem settled (h : g.Circles verdict? reports frames (some id)) (hid : verdict? id = some false) :
    g.Circles verdict? reports frames none where
  told := h.told
  onCycle := h.onCycle
  followed := h.followed
  tied f hf hsome := by
    obtain ⟨m, hm, he⟩ := h.tied f hf hsome
    refine ⟨m, .inl ?_, he⟩
    rcases hm with hm | hm
    · exact hm
    · cases hm
      exact hid
  single := h.single
  barred := h.barred
  accused _ := nofun

theorem convict (h : g.Circles verdict? reports (f :: frames) (some id))
    (hf : f.cell = ⟨.standard .constant, id⟩) (hid : verdict? id = none) :
    g.Circles (Function.update verdict? id (some false))
      (reports ++ [(g.outline.subject g.rules).circle id]) ({ f with doomed := true } :: frames)
      none := by
  have haccused := h.accused id rfl
  have hself : Function.update verdict? id (some false) id = some false := Function.update_self ..
  have hmono : ∀ m b, verdict? m = some b →
      Function.update verdict? id (some false) m = some b := by
    intro m b hm
    rw [Function.update_of_ne _]
    · exact hm
    · rintro rfl
      rw [hid] at hm
      cases hm
  have hblamed : ∀ m, Function.update verdict? id (some false) m = some false ↔
      verdict? m = some false ∨ m = id := by
    intro m
    by_cases hm : m = id
    · simp [hm]
    · simp [hm]
  have hfound : ∀ m, Function.update verdict? id (some false) m = some true →
      verdict? m = some true := by
    intro m hm
    by_cases heq : m = id
    · rw [heq, hself] at hm
      cases hm
    · rwa [Function.update_of_ne heq] at hm
  constructor
  · obtain ⟨culprits, hnodup, hmem, hreports⟩ := h.told
    refine ⟨culprits ++ [id], ?_, fun m => ?_, by rw [hreports, List.map_append]; rfl⟩
    · refine hnodup.append (List.nodup_singleton id) ?_
      intro m hm hm'
      rw [List.mem_singleton.1 hm', hmem, hid] at hm
      cases hm
    · rw [List.mem_append, hmem, List.mem_singleton, hblamed]
  · intro m hm
    rcases (hblamed m).1 hm with hm | rfl
    · exact h.onCycle m hm
    · exact haccused.closes.onCycle
  · exact fun m hm dep hd => (h.followed m (hfound m hm) dep hd).mono hmono
  · intro e he hsome
    have hold : ∃ m, (verdict? m = some false ∨ some id = some m) ∧
        g.tree.Entangled e.cell.node m := by
      rcases List.mem_cons.1 he with rfl | he
      · exact h.tied f List.mem_cons_self hsome
      · exact h.tied e (List.mem_cons_of_mem _ he) hsome
    obtain ⟨m, hm, hent⟩ := hold
    refine ⟨m, .inl ((hblamed m).2 (hm.imp_right ?_)), hent⟩
    rintro ⟨⟩
    rfl
  · intro k m hk hm hent hring
    rcases (hblamed k).1 hk with hk' | hk' <;> rcases (hblamed m).1 hm with hm' | hm'
    · exact h.single k m hk' hm' hent hring
    · rw [hm'] at hent ⊢
      exact (haccused.single (hring.of_entangled hent) k hk' hent.symm).symm
    · rw [hk'] at hent hring ⊢
      exact haccused.single hring m hm' hent
    · rw [hk', hm']
  · refine ⟨fun _ _ => ?_, h.barred.2⟩
    have hnode : f.cell.node = id := by rw [hf]
    refine (hnode ▸ haccused.closes).mono fun e he => ?_
    rcases List.mem_cons.1 he with rfl | he
    · exact ⟨_, List.mem_cons_self, rfl⟩
    · exact ⟨e, List.mem_cons_of_mem _ he, rfl⟩
  · exact fun _ => nofun

theorem clear (h : g.Circles verdict? reports frames none) (hid : verdict? id = none)
    (hdeps : ∀ dep, g.tree.Depends id dep → g.Traced verdict? dep) :
    g.Circles (Function.update verdict? id (some true)) reports frames none := by
  have hblamed : ∀ m, Function.update verdict? id (some true) m = some false ↔
      verdict? m = some false := by
    intro m
    by_cases hm : m = id
    · simp [hm, hid]
    · simp [hm]
  have hmono : ∀ m b, verdict? m = some b → Function.update verdict? id (some true) m = some b := by
    intro m b hm
    rw [Function.update_of_ne _]
    · exact hm
    · rintro rfl
      rw [hid] at hm
      cases hm
  constructor
  · obtain ⟨culprits, hnodup, hmem, hreports⟩ := h.told
    exact ⟨culprits, hnodup, fun m => by rw [hmem, hblamed], hreports⟩
  · exact fun m hm => h.onCycle m ((hblamed m).1 hm)
  · intro m hm dep hd
    by_cases heq : m = id
    · subst heq
      exact (hdeps dep hd).mono hmono
    · rw [Function.update_of_ne heq] at hm
      exact (h.followed m hm dep hd).mono hmono
  · intro f hf hsome
    obtain ⟨m, hm, hent⟩ := h.tied f hf hsome
    exact ⟨m, hm.imp_left (hblamed m).2, hent⟩
  · exact fun k m hk hm => h.single k m ((hblamed k).1 hk) ((hblamed m).1 hm)
  · exact h.barred
  · exact fun _ => nofun

end Circles

/-! ## Circles on the stack -/

theorem depends_of_under {c d : CellKey} (h : g.Under d c) (hd : d.family = .standard .constant) :
    g.tree.Depends d.node c.node := by
  obtain ⟨f, m⟩ := d
  obtain ⟨f', id⟩ := c
  cases hd
  cases f' with
  | word a => exact h.elim
  | standard a =>
    rcases h.2 with hp | hr | ⟨-, -, hd⟩
    · exact absurd hp (Nat.not_lt_zero _)
    · exact absurd rfl hr.2.1
    · exact hd

theorem dependsOn_of_path {c d : CellKey} (h : Relation.TransGen g.Under d c)
    (hd : d.family = .standard .constant) :
    Relation.TransGen g.tree.Depends d.node c.node := by
  rcases before_or_dependsOn h with hb | hdep
  · exact absurd hb (not_before_constant hd)
  · exact hdep.2.2

theorem Linked.of_append (h : g.Linked (above ++ frames)) : g.Linked frames := by
  induction above with
  | nil => exact h
  | cons t rest ih => exact ih (Linked.tail h)

theorem Linked.entangled_of_asked (hl : g.Linked (above ++ e :: below))
    (hasks : g.Asks (above ++ e :: below) e.cell) (hf : f ∈ above ++ [e]) :
    f.cell.family = .standard .constant ∧ g.tree.Entangled e.cell.node f.cell.node := by
  have hconst := fun f hf => (hl.lost_of_asked hasks f hf).1
  rcases List.mem_append.1 hf with hf | hf
  · have hfc := hconst f (List.mem_cons_of_mem _ hf)
    have hup := dependsOn_of_path (hl.path_up f hf) (hconst e List.mem_cons_self)
    have hdown := dependsOn_of_path (hl.path hasks (List.mem_append_left _ hf)) hfc
    exact ⟨hfc, hup.to_reflTransGen, hdown.to_reflTransGen⟩
  · obtain rfl := List.mem_singleton.1 hf
    exact ⟨hconst f List.mem_cons_self, .refl _⟩

theorem exists_above (below : List (Frame Attribute.schema)) (hf : f ∈ above ++ [e]) :
    (∃ rest, above ++ e :: below = f :: rest) ∨
      ∃ pre t post, above ++ e :: below = pre ++ t :: f :: post ∧ t ∈ above ++ [e] := by
  obtain ⟨pre, post, hsplit⟩ := List.append_of_mem hf
  have hframes : above ++ e :: below = pre ++ f :: (post ++ below) := by
    rw [List.append_cons, hsplit, List.append_assoc]
    rfl
  rcases List.eq_nil_or_concat pre with rfl | ⟨pre', t, rfl⟩
  · exact .inl ⟨_, hframes⟩
  · refine .inr ⟨pre', t, post ++ below, ?_, ?_⟩
    · rw [hframes, List.concat_eq_append, List.append_assoc]
      rfl
    · rw [hsplit, List.concat_eq_append]
      simp

/-- Where a ring closes, nobody but the reader has been blamed for it: the whole ring is on
the stack, and the way on from one who is going to fail would be on it twice. -/
theorem Circles.single_of_asked (h : g.Circles verdict? reports (above ++ e :: below) blame)
    (hl : g.Linked (above ++ e :: below)) (hasks : g.Asks (above ++ e :: below) e.cell)
    (hnodup : ((above ++ e :: below).map Frame.cell).Nodup)
    (hdoomed : ∀ f ∈ above ++ [e], verdict? f.cell.node = some false → f.doomed = true)
    {rest : List (Frame Attribute.schema)} (htop : above ++ e :: below = f :: rest)
    (hring : g.tree.Ring e.cell.node) (hm : verdict? m = some false)
    (hent : g.tree.Entangled e.cell.node m) : m = f.cell.node := by
  have hseg := fun (k : Frame Attribute.schema) hk => hl.entangled_of_asked (f := k) hasks hk
  -- From each frame of the circle there is a way on to another one.
  have hnext : ∀ k ∈ above ++ [e], k = f ∨ ∃ pre t post,
      above ++ e :: below = pre ++ t :: k :: post ∧ t ∈ above ++ [e] ∧
        g.tree.Depends k.cell.node t.cell.node := by
    intro k hk
    rcases exists_above below hk with ⟨rest', hrest⟩ | ⟨pre, t, post, hframes, ht⟩
    · rw [htop] at hrest
      cases hrest
      exact .inl rfl
    · refine .inr ⟨pre, t, post, hframes, ht, depends_of_under ?_ (hseg k hk).1⟩
      rw [hframes] at hl
      exact hl.of_append.1
  have hmem : ∃ k ∈ above ++ [e], k.cell.node = m := by
    refine hring.mem_of_closed (S := fun m => ∃ k ∈ above ++ [e], k.cell.node = m)
      ⟨e, by simp, rfl⟩ ?_ hent
    rintro _ ⟨k, hk, rfl⟩ -
    rcases hnext k hk with rfl | ⟨-, t, -, -, ht, hd⟩
    · exact ⟨_, ⟨e, by simp, rfl⟩, depends_of_under (hasks k rest htop) (hseg k hk).1, .refl _⟩
    · exact ⟨_, ⟨t, ht, rfl⟩, hd, (hseg t ht).2⟩
  obtain ⟨k, hk, rfl⟩ := hmem
  rcases hnext k hk with rfl | ⟨pre, t, post, hframes, ht, hd⟩
  · rfl
  · exfalso
    have hbarred := h.barred
    rw [hframes, List.append_cons] at hbarred
    obtain ⟨e', he', hconst', hd', hent'⟩ :=
      hbarred.of_append.1 (hseg k hk).1 (hdoomed k hk hm)
    have hnode : t.cell.node = e'.cell.node :=
      hring _ (hseg k hk).2 _ _ hd hd' (hseg t ht).2 ((hseg k hk).2.trans hent')
    have hcell : t.cell = e'.cell := by
      have hconst := (hseg t ht).1
      revert hnode hconst hconst'
      generalize t.cell = c
      generalize e'.cell = c'
      rintro hnode hconst' hconst
      obtain ⟨_, _⟩ := c
      obtain ⟨_, _⟩ := c'
      cases hconst
      cases hconst'
      cases hnode
      rfl
    rw [hframes, List.map_append, List.nodup_append] at hnodup
    have hoff := (List.nodup_cons.1 hnodup.2.1).1
    exact hoff (hcell ▸ List.mem_map_of_mem he')

/-- A constant on the stack is asked for again: the reader is accused. -/
theorem Circles.rejoin {index : Nat} (h : g.Circles verdict? reports (above ++ e :: below) none)
    (hl : g.Linked (above ++ e :: below)) (hasks : g.Asks (above ++ e :: below) e.cell)
    (hnodup : ((above ++ e :: below).map Frame.cell).Nodup)
    (hdoomed : ∀ f ∈ above ++ [e], verdict? f.cell.node = some false → f.doomed = true)
    {rest : List (Frame Attribute.schema)} (htop : above ++ e :: below = f :: rest) :
    g.Circles verdict? reports (above.map (Frame.joinCycle index) ++ e :: below)
      (some f.cell.node) := by
  have hf : f ∈ above ++ [e] := by
    cases above with
    | nil =>
      cases htop
      exact List.mem_cons_self
    | cons t above =>
      cases htop
      exact List.mem_cons_self
  obtain ⟨hconst, hent⟩ := hl.entangled_of_asked hasks hf
  constructor
  · exact h.told
  · exact h.onCycle
  · exact h.followed
  · intro k hk hsome
    rcases List.mem_append.1 hk with hk | hk
    · obtain ⟨k', hk', rfl⟩ := List.mem_map.1 hk
      have hk'' := (hl.entangled_of_asked hasks (List.mem_append_left _ hk')).2
      exact ⟨_, .inr rfl, hk''.symm.trans hent⟩
    · obtain ⟨m, hm, he⟩ := h.tied k (List.mem_append_right _ hk) hsome
      exact ⟨m, hm.imp_right nofun, he⟩
  · exact h.single
  · exact h.barred.map
  · rintro _ ⟨⟩
    refine ⟨⟨e, by simp, ?_, depends_of_under (hasks f rest htop) hconst, hent.symm⟩, ?_⟩
    · exact (hl.entangled_of_asked hasks (f := e) (by simp)).1
    · intro hring m hm he
      exact h.single_of_asked hl hasks hnodup hdoomed htop (hring.of_entangled hent.symm) hm
        (hent.trans he)

end Scene

end Attribution
