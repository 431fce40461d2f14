import Attribution.Proofs.Analysis.Entering
/-!
# Operations

What an analysis may be asked for from outside, by an evaluator whose stack is
empty. Every operation comes to an end and leaves the invariant behind
(`gives_operation`), whatever is picked at the barriers. Clearing a cell is the
one operation that undoes what has ended, so it is not a `Runs`.
-/

namespace Attribution

open Engine

inductive Operation where
  | create (c : CellKey)
  | probe (c : CellKey)
  | get (a : Attribute) (id : NodeId)
  | reset (c : CellKey)
  | attempt (c : CellKey)
  | diagnose

namespace Operation

abbrev Reply : Operation → Type
  | .create _ | .reset _ | .diagnose => Unit
  | .probe c => Probe c.family.Value
  | .get a _ => a.Value
  | .attempt _ => Option Attempt

def action (s : Subject) : (op : Operation) → Eval op.Reply
  | .create c => s.occupy c
  | .probe c => s.probeCell c
  | .get a id => s.read a id
  | .reset c => s.reset c
  | .attempt c => s.attempt c
  | .diagnose => s.diagnose

def cell? : Operation → Option CellKey
  | .create c | .probe c | .reset c | .attempt c => some c
  | .get a id => some ⟨.standard a, id⟩
  | .diagnose => none

def Within (t : Tree) (op : Operation) : Prop :=
  ∀ c, op.cell? = some c → c.family = .standard c.family.attr ∧ c.node < t.size

def evaluator (s : Subject) (id : EvaluatorId) (worker : Option Nat) (op : Operation) :
    Evaluator Attribute.schema (Except Error op.Reply) :=
  { id, home := Analysis.home, worker, focus := .act (.top (op.action s).run) }

end Operation

/-! ## Diagnoses -/

/-- The attribute of its own that a node is asked for when it is diagnosed. -/
def NodeKind.checked? : NodeKind → Option Attribute
  | .constDecl _ => some .constant
  | .breakTo _ => some .breaks
  | .continueTo _ => some .continues
  | _ => none

/-- The attributes that a node is asked for when it is diagnosed. -/
def NodeKind.inspected (k : NodeKind) : List Attribute :=
  k.checked?.toList ++ if k.isStatement then [.unreachable] else []

def Tree.inspected (t : Tree) (ids : List NodeId) : List CellKey :=
  ids.flatMap fun id => ((t.node? id).elim [] fun n => n.kind.inspected).map (⟨.standard ·, id⟩)

theorem Subject.diagnoseNode_eq (s : Subject) {id : NodeId} {n : Node}
    (hn : s.tree.node? id = some n) : s.diagnoseNode id = (do
      n.kind.checked?.elim (pure ()) fun a => discard (s.read a id)
      if n.kind.isStatement then s.read .unreachable id else return false) := by
  unfold diagnoseNode
  rw [hn]
  dsimp only
  cases n.kind with
  | _ => rfl

theorem Tree.inspected_cons (t : Tree) {id : NodeId} {n : Node} (hn : t.node? id = some n)
    (rest : List NodeId) :
    t.inspected (id :: rest) = n.kind.inspected.map (⟨.standard ·, id⟩) ++ t.inspected rest := by
  rw [inspected, List.flatMap_cons, hn]
  rfl

namespace Scene

variable {g : Scene} {β : Type} {clean : Prop} {part : g.Part}
  {w w' w'' : World Attribute.schema} {c : CellKey} {u : WorkUnit CellKey}

/-! ## The beginning -/

theorem inv_start (config : Config) (hdepth : config.limits.maxDepth = g.depth) :
    g.Inv part (Analysis.start g.subject config).world [] := by
  have hfree : ∀ c, (Analysis.start g.subject config).world.resolver? c = none := fun _ => rfl
  have hempty : ∀ c, (Analysis.start g.subject config).world.content c = .unset := fun _ => rfl
  have hstage : ∀ c, (Analysis.start g.subject config).world.stage c = none := fun _ => rfl
  refine ⟨⟨Nat.one_pos, rfl, hdepth, rfl, fun _ => rfl, ?_, ?_, ?_, ?_, Registry.tidy_empty⟩,
    ⟨?_, ?_, ?_, ?_, ?_, ?_⟩, ⟨?_, ?_, ?_, ?_, ?_, ?_⟩⟩
  · intro c u hu
    rw [hfree] at hu
    cases hu
  · intro a id f hf
    change ({} : Std.TreeMap Nat Family)[Slots.number a id]? = some f at hf
    rw [Std.TreeMap.getElem?_emptyc] at hf
    cases hf
  · intro c d u v hu
    rw [hfree] at hu
    cases hu
  · intro p u hu
    cases hu
  · intro f hf
    cases hf
  · intro f hf
    cases hf
  · intro c status hs
    rw [hstage] at hs
    cases hs
  · exact List.nodup_nil
  · intro f hf
    cases hf
  · trivial
  · intro c hs
    rw [hstage] at hs
    cases hs
  · intro c v hv
    rw [hempty] at hv
    cases hv
  · intro c v hv
    rw [hempty] at hv
    cases hv
  · intro c _ v hv
    rw [hempty] at hv
    cases hv
  · intro c _ hs
    rw [hstage] at hs
    cases hs
  · intro f hf
    cases hf

/-! ## Ends of operations -/

/-- The end of an action that started with an empty stack. -/
def Concludes (g : Scene) (clean : Prop) (Q : β → Prop) :
    Except Error β → World Attribute.schema → List (Frame Attribute.schema) → Prop
  | .ok b, w', frames' => frames' = [] ∧ g.Inv clean w' [] ∧ (clean → Q b)
  | .error x, w', frames' => frames' = [] ∧ g.Inv False w' [] ∧ g.Excused x

theorem Onward.nil {frames : List (Frame Attribute.schema)} (h : Onward w [] w' frames) :
    frames = [] :=
  List.map_eq_nil_iff.1 h.units

theorem Runs.concludes {x : Eval β}
    {Q : β → World Attribute.schema → List (Frame Attribute.schema) → Prop} {Q' : β → Prop}
    (h : g.Runs clean w [] x Q) (hQ : ∀ b w frames, Q b w frames → clean → Q' b) :
    Gives g.model g.watch Analysis.home w [] x.run (g.Concludes clean Q') := by
  apply Gives.mono h
  intro result w' frames' hresult
  cases result with
  | ok b =>
    obtain ⟨hinv, ho, hb⟩ := hresult
    obtain rfl := ho.nil
    exact ⟨rfl, hinv, hQ b w' [] hb⟩
  | error x =>
    obtain ⟨hx, hinv, ho⟩ := hresult
    obtain rfl := ho.nil
    exact ⟨rfl, hinv.bare, hx⟩

theorem runs_resolver? {frames : List (Frame Attribute.schema)} (h : g.Inv clean w frames)
    (hc : g.Admits c) :
    g.Runs clean w frames (g.subject.resolver? c) fun r w' _ =>
      ∃ u, r = some u ∧ w'.resolver? c = some u := by
  apply runs_bind (runs_occupy h hc)
  rintro - w' frames' h' - ⟨-, ⟨u, hu⟩, -⟩
  exact gives_look fun _ => gives_pure ⟨h', .refl w' frames', u, hu, hu⟩

/-- The books have been kept, and the resolvers of the given cells have ended. -/
def Covers (g : Scene) (w w' : World Attribute.schema) (cells : List CellKey) : Prop :=
  ∀ told, g.Books w [] none told → g.Books w' [] none told ∧ ∀ c ∈ cells, w'.ended c = true

theorem Covers.trans {cells cells' : List CellKey} (h : g.Covers w w' cells)
    (h' : g.Covers w' w'' cells') (ha : w'.Ahead w'') : g.Covers w w'' (cells ++ cells') := by
  intro told hb
  obtain ⟨hb', hended⟩ := h told hb
  obtain ⟨hb'', hended'⟩ := h' told hb'
  refine ⟨hb'', fun c hc => ?_⟩
  rcases List.mem_append.1 hc with hc | hc
  · exact ha.ended (hended c hc)
  · exact hended' c hc

theorem Keeps.covers (h : g.Keeps [] w w') : g.Covers w w' [] :=
  fun told hb => ⟨h none told hb, nofun⟩

section Reads

variable (hs : g.outline.Shaped)

include hs

theorem runs_probeCell_top (h : g.Inv part w []) (hc : g.Admits c) :
    g.Runs part w [] (g.subject.probeCell c) fun p w' _ => c.node < g.outline.size ∧
      (part c → g.Faithful c p) ∧ (part.Whole → g.Wanted c → g.Covers w w' [c]) := by
  have hasks : g.Asks [] c := nofun
  apply (runs_probeCell (enters hs (8 * g.outline.size)) h hasks hc (Nat.le_add_left _ _)).mono
  rintro p w' frames' ho ⟨hnode, hp, hread⟩
  obtain rfl := ho.nil
  refine ⟨hnode, hp, fun hclean hwanted told hb => ⟨?_, fun d hd => ?_⟩⟩
  · have hrecorded := (hread hclean).recorded hwanted told hb
    cases hp : p.isCyclic with
    | false => exact (hrecorded.found hp).1
    | true =>
      obtain ⟨f, rest, hf, -⟩ := hrecorded.cyclic hp
      cases hf
  · obtain rfl := List.mem_singleton.1 hd
    rcases (hread hclean).ended hwanted told hb with hended | ⟨f, rest, hf, -⟩
    · exact hended
    · cases hf

theorem runs_read_part (h : g.Inv part w []) {a : Attribute} {id : Nat}
    (hc : g.Admits ⟨.standard a, id⟩) :
    g.Runs part w [] (g.subject.read a id) fun v w' _ => id < g.outline.size ∧
      (part ⟨.standard a, id⟩ → v = g.value ⟨.standard a, id⟩) ∧
        (part.Whole → g.Wanted ⟨.standard a, id⟩ → g.Covers w w' [⟨.standard a, id⟩]) := by
  apply runs_bind (runs_probeCell_top hs h hc)
  rintro p w' frames' h' - ⟨hnode, hp, hcovers⟩
  exact runs_pure h' ⟨hnode, fun hpart => (hp hpart).1, hcovers⟩

theorem runs_read_top (h : g.Inv clean w []) {a : Attribute} {id : Nat}
    (hc : g.Admits ⟨.standard a, id⟩) :
    g.Runs clean w [] (g.subject.read a id) fun v w' _ =>
      clean → v = g.value ⟨.standard a, id⟩ ∧
        (g.Wanted ⟨.standard a, id⟩ → g.Covers w w' [⟨.standard a, id⟩]) :=
  (runs_read_part hs h hc).mono fun _ _ _ _ hread hclean =>
    ⟨hread.2.1 hclean, hread.2.2 fun _ => hclean⟩

theorem runs_attempt_top (h : g.Inv clean w []) (hc : g.Admits c) :
    g.Runs clean w [] (g.subject.attempt c) fun _ _ _ => True := by
  apply runs_bind (runs_resolver? h hc)
  rintro _ w' frames' h' ho ⟨u, rfl, hu⟩
  show Gives g.model g.watch Analysis.home w' frames'
    (.ask (.attempt u) fun r => (some <$> (liftExcept r : Eval Attempt)).run) _
  apply gives_attempt
  apply (enters hs (8 * g.outline.size) clean w' frames' c u h' hu _ (Nat.le_add_left _ _)).mono
  · intro r w'' frames'' hr
    cases r with
    | error x => exact gives_pure hr
    | ok outcome => exact gives_pure ⟨hr.1, hr.2.1, trivial⟩
  · obtain rfl := ho.nil
    exact nofun

theorem runs_diagnoseNode_top (h : g.Inv clean w []) {id : Nat} {n : Node}
    (hn : g.subject.tree.node? id = some n) :
    g.Runs clean w [] (g.subject.diagnoseNode id) fun _ w' _ =>
      clean → g.Covers w w' (n.kind.inspected.map (⟨.standard ·, id⟩)) := by
  have hadmits : ∀ a, g.Admits ⟨.standard a, id⟩ := fun _ _ => ⟨rfl, node_lt_of_node? hn⟩
  rw [Subject.diagnoseNode_eq _ hn]
  apply runs_bind (Q := fun _ w' _ =>
    clean → g.Covers w w' (n.kind.checked?.toList.map (⟨.standard ·, id⟩)))
  · cases hchecked : n.kind.checked? with
    | none => exact runs_pure h fun _ => Keeps.covers fun _ _ hb => hb
    | some a =>
      have hwanted : g.Wanted ⟨.standard a, id⟩ := by
        cases hk : n.kind with
        | constDecl name | breakTo label | continueTo label =>
          rw [hk] at hchecked
          cases hchecked
          trivial
        | _ =>
          rw [hk] at hchecked
          cases hchecked
      exact runs_map ((runs_read_top hs h (hadmits a)).mono fun _ _ _ _ hread hclean =>
        (hread hclean).2 hwanted)
  · intro _ w' frames' h' ho hown
    obtain rfl := ho.nil
    rw [NodeKind.inspected, List.map_append]
    split
    · rename_i hstatement
      have hwanted : g.Wanted ⟨.standard .unreachable, id⟩ := by
        change ((g.subject.tree.node? id).any fun n => n.kind.isStatement) = true
        rw [hn]
        exact hstatement
      exact (runs_read_top hs h' (hadmits .unreachable)).mono fun _ _ _ ho' hread hclean =>
        (hown hclean).trans ((hread hclean).2 hwanted) ho'.ahead
    · refine runs_pure h' fun hclean => ?_
      rw [List.map_nil, List.append_nil]
      exact hown hclean

theorem runs_diagnoseAll_top (ids : List Nat) (hids : ∀ id ∈ ids, id < g.outline.size) (found : Nat)
    (h : g.Inv clean w []) :
    g.Runs clean w [] (g.subject.diagnoseAll found ids) fun _ w' _ =>
      clean → g.Covers w w' (g.subject.tree.inspected ids) := by
  induction ids generalizing w found with
  | nil => exact runs_pure h fun _ => Keeps.covers fun _ _ hb => hb
  | cons id rest ih =>
    obtain ⟨n, hn⟩ := exists_node (hids id List.mem_cons_self)
    apply runs_bind (runs_diagnoseNode_top hs h hn)
    intro begins w' frames' h' ho hnode
    obtain rfl := ho.nil
    apply (ih (fun m hm => hids m (List.mem_cons_of_mem _ hm)) _ h').mono
    intro _ w'' _ ho' hrest hclean
    rw [Tree.inspected_cons _ hn]
    exact (hnode hclean).trans (hrest hclean) ho'.ahead

theorem runs_diagnose_top (h : g.Inv clean w []) :
    g.Runs clean w [] g.subject.diagnose fun _ w' _ =>
      clean → g.Covers w w' (g.subject.tree.inspected g.subject.tree.preorder ++
        [⟨.standard .propagated, g.subject.tree.root⟩]) := by
  apply runs_bind (runs_note h _)
  rintro _ w₁ _ h₁ - ⟨rfl, hbegin⟩
  apply runs_bind (runs_diagnoseAll_top hs g.subject.tree.preorder _ 0 h₁)
  · intro unreachable w₂ frames h₂ ho hnodes
    obtain rfl := ho.nil
    apply runs_bind (runs_read_top hs h₂ fun _ => ⟨rfl, g.outline.size_pos⟩)
    intro escaping w₃ frames h₃ ho hroot
    obtain rfl := ho.nil
    apply runs_bind (runs_slots h₃)
    rintro slots _ _ h₃ - ⟨-, rfl, rfl⟩
    apply (runs_note h₃ _).mono
    rintro _ w₄ _ ho' ⟨-, hend⟩ hclean
    have hall := (hnodes hclean).trans ((hroot hclean).2 trivial) ho.ahead
    have hlast := hall.trans hend.covers ho'.ahead
    rw [List.append_nil] at hlast
    exact fun told hb => hlast told (hbegin none told hb)
  · intro id hid
    rw [← Tree.size_ofOutline]
    exact List.mem_range.1 hid

end Reads

/-! ## Clearing a cell -/

theorem Inv.reset (h : g.Inv clean w []) (hu : w.resolver? c = some u) (origin : Option Nat) :
    g.Inv clean (w.reset origin c) [] := by
  have hserves := h.wired.serves c u hu
  have hstatus : w.unitStatus? u = w.stage c := by
    unfold World.unitStatus?
    rw [hserves.at_home, World.stage_eq hu]
    exact if_pos h.wired.live
  by_cases ht : (w.unitStatus? u).any Status.isTerminal = true
  · have hn := World.renewed_reset h.wired.session origin hu hserves.rule hserves.phase
      hserves.at_home hserves.slot ht
    refine h.renew hn (h.wired.renew hn hserves.node_lt hserves.standard ?_ ?_) (by simp)
    · intro f hf
      rw [hserves.slot] at hf
      exact (Option.some.inj hf).symm
    · intro x hx hrule
      obtain ⟨-, -, hopen⟩ := h.wired.pending x.1 x.2 hx
      rw [hstatus, Option.any_eq_true] at ht
      obtain ⟨status, hs, ht⟩ := ht
      rw [hopen status (by rw [hrule]; exact hs)] at ht
      cases ht
  · have hreset : w.reset origin c = (w.setValue c .unset).note origin (.reset c.label) := by
      apply World.reset_eq_of_unsettled
      intro v hv
      obtain rfl : u = v := Option.some.inj (hu.symm.trans hv)
      exact Bool.eq_false_iff.2 ht
    rw [hreset]
    apply Inv.same _ (World.same_note _ _ _)
    apply h.setValue
    · intro hs
      rw [hstatus, hs] at ht
      exact absurd rfl ht
    · exact nofun
    · exact nofun
    · exact nofun

theorem gives_reset_top (h : g.Inv clean w []) (hc : g.Admits c) :
    Gives g.model g.watch Analysis.home w [] (g.subject.reset c).run
      (g.Concludes clean fun _ => True) := by
  apply gives_run_bind (runs_occupy h hc)
  · rintro - w' _ h' - ⟨rfl, ⟨u, hu⟩, -⟩
    exact gives_reset fun origin => gives_pure ⟨rfl, h'.reset hu origin, fun _ => trivial⟩
  · intro x w' frames' hx h' ho
    exact ⟨ho.nil, ho.nil ▸ h'.bare, hx⟩

/-! ## All operations -/

def Replies (g : Scene) : (op : Operation) → op.Reply → Prop
  | .get a id, v => v = g.value ⟨.standard a, id⟩
  | .probe c, p => g.Faithful c p
  | _, _ => True

def Permits (g : Scene) (op : Operation) : Prop :=
  ∀ c, op.cell? = some c → g.Admits c

theorem gives_operation (hs : g.outline.Shaped) (h : g.Inv clean w []) {op : Operation}
    (hop : g.Permits op) :
    Gives g.model g.watch Analysis.home w [] (op.action g.subject).run
      (g.Concludes clean (g.Replies op)) := by
  cases op with
  | create c => exact (runs_occupy h (hop c rfl)).concludes fun _ _ _ _ _ => trivial
  | probe c =>
    exact (runs_probeCell_top hs h (hop c rfl)).concludes fun _ _ _ hp hclean => hp.2.1 hclean
  | get a id =>
    exact (runs_read_top hs h (hop _ rfl)).concludes fun _ _ _ hv hclean => (hv hclean).1
  | reset c => exact gives_reset_top h (hop c rfl)
  | attempt c => exact (runs_attempt_top hs h (hop c rfl)).concludes fun _ _ _ _ _ => trivial
  | diagnose => exact (runs_diagnose_top hs h).concludes fun _ _ _ _ _ => trivial

end Scene

end Attribution
