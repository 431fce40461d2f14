import Attribution.Proofs.Engine.Account
import Attribution.Proofs.Engine.History
/-!
# What a run leaves behind

A body stores values in cells while it runs, and the end of its run decides what
becomes of them: they stay when the unit has succeeded, they are no longer final when
it has to run again, and the sentinel takes their place when it has failed. A body
that ends in an error fails too, but what it has stored stays as it is.

* `Left` says what the end of a run leaves in a cell, `Holds` what the cell holds on
  the way there, and `Holds.step` that a step of the evaluator keeps this;
* `remains_of_filled` says what becomes of every value that a failed unit has stored,
  in any of its runs.
-/

namespace Attribution.Engine

variable {S : Schema} {α : Type}

/-! ## Final values taken back -/

@[simp] theorem CellValue.softened_softened {β : Type} (x : CellValue β) :
    x.softened.softened = x.softened := by
  cases x with
  | unset | soft | forced => rfl

theorem CellValue.softened_of_value? {β : Type} {x : CellValue β} {v : β}
    (h : x.value? = some v) : x.softened = .soft v := by
  cases x with
  | unset => cases h
  | soft u | forced u =>
    cases h
    rfl

theorem World.value_foldl_softened (w : World S) (cells : List S.Key) (c : S.Key) :
    ((cells.foldl (fun w c => w.modifyCell c fun cell =>
      { cell with value := cell.value.softened }) w).cell c).value =
      if c ∈ cells then (w.cell c).value.softened else (w.cell c).value := by
  induction cells generalizing w with
  | nil => rfl
  | cons d rest ih =>
    rw [List.foldl_cons, ih]
    by_cases hd : d = c
    · subst hd
      rw [World.cell_modifyCell_self]
      simp
    · rw [World.cell_modifyCell_ne _ _ hd]
      simp [Ne.symm hd]

/-! ## Steps that write -/

namespace Deed

def Fills (id : UnitId) (c : S.Key) (v : S.Val c) (t : Deed S α) : Prop :=
  t.actor.reader? = some id ∧ t.actor.request? = some (.fill c v)

def Firm (t : Deed S α) : Prop :=
  ∀ f ∈ t.actor.frames.head?, f.head = none ∧ f.doomed = false

def Ends (id : UnitId) (result : Except Error Unit) (t : Deed S α) : Prop :=
  t.actor.reader? = some id ∧ t.actor.writes = [] ∧ t.actor.focus = .closing result

def Spares (c : S.Key) (t : Deed S α) : Prop :=
  (t.actor.occurrences t.before).Spares c

/-- The write belongs to the run of the unit that has stored `v` in the cell: it is the
value itself while the body runs, and what the end of the run demands after that. -/
def Own (id : UnitId) (c : S.Key) (v : S.Val c) (x : CellValue (S.Val c)) (t : Deed S α) : Prop :=
  t.actor.reader? = some id ∧
    match t.actor.writes, t.actor.focus with
    | _ :: _, .closing _ => x = .forced (S.sentinel c)
    | _ :: _, _ => x = .forced v
    | [], .act (.body (.pure _)) => True
    | [], _ => False

/-- Somebody else writes to the cell, or the unit stores another value. -/
def Overwrites (id : UnitId) (c : S.Key) (v : S.Val c) (t : Deed S α) : Prop :=
  (∃ u, t.Fills id c u) ∨
    ∃ x, .wrote c x ∈ t.actor.occurrences t.before ∧ ¬t.Own id c v x

variable {id : UnitId} {c : S.Key} {v : S.Val c} {t : Deed S α}

theorem spares_of_own (h : ¬t.Overwrites id c v) (hown : ∀ x, ¬t.Own id c v x) : t.Spares c :=
  fun x hx => h (.inr ⟨x, hx, hown x⟩)

theorem Spares.not_overwrites (h : t.Spares c) (hf : ∀ u, ¬t.Fills id c u) :
    ¬t.Overwrites id c v := by
  rintro (⟨u, hu⟩ | ⟨x, hx, -⟩)
  · exact hf u hu
  · exact h x hx

theorem own_of_wrote (h : ¬t.Overwrites id c v) {x : CellValue (S.Val c)}
    (hx : .wrote c x ∈ t.actor.occurrences t.before) : t.Own id c v x :=
  Classical.byContradiction fun hown => h (.inr ⟨x, hx, hown⟩)

end Deed

theorem Evaluator.value_of_spares {m : Model S} {pick : Nat} {w w' : World S}
    {e e' : Evaluator S α} (h : e.step m pick w = some (w', e')) {c : S.Key}
    (hc : (e.occurrences w).Spares c) : (w'.cell c).value = (w.cell c).value := by
  rcases leaves_of_step h c with ⟨-, hsame⟩ | ⟨before, after, hlog, -⟩
  · exact hsame
  · refine absurd ?_ (hc (w'.cell c).value)
    rw [hlog]
    exact List.mem_append_right _ List.mem_cons_self

/-! ## Frames that stay on the stack -/

/-- What becomes of a frame while the body of its unit runs. -/
structure Frame.Ages (f f' : Frame S) : Prop where
  unit : f'.unit = f.unit
  fills : f.fills ⊆ f'.fills
  head : f'.head = none → f.head = none
  doomed : f'.doomed = false → f.doomed = false

namespace Frame

theorem Ages.refl (f : Frame S) : f.Ages f :=
  ⟨rfl, fun _ h => h, fun h => h, fun h => h⟩

theorem exists_joinCycleAbove (index : Nat) {frames : List (Frame S)} {f : Frame S}
    (hf : f ∈ frames) : ∃ f' ∈ joinCycleAbove index frames, f.Ages f' := by
  induction frames with
  | nil => cases hf
  | cons g rest ih =>
    rw [joinCycleAbove]
    split
    · rcases List.mem_cons.1 hf with rfl | hf
      · exact ⟨_, List.mem_cons_self, rfl, fun _ h => h, (fun h => by cases h), fun h => h⟩
      · obtain ⟨f', hf', hages⟩ := ih hf
        exact ⟨f', List.mem_cons_of_mem _ hf', hages⟩
    · exact ⟨f, hf, .refl f⟩

end Frame

theorem Restack.exists_ages {e : Evaluator S α} {frames : List (Frame S)} (h : Restack e frames)
    {f : Frame S} (hf : f ∈ e.frames) : ∃ f' ∈ frames, f.Ages f' := by
  cases h with
  | same => exact ⟨f, hf, .refl f⟩
  | @fill g rest c v hr hg =>
    rw [hg] at hf
    rcases List.mem_cons.1 hf with rfl | hf
    · exact ⟨_, List.mem_cons_self, rfl, fun _ h => List.mem_append_left _ h, fun h => h,
        fun h => h⟩
    · exact ⟨f, List.mem_cons_of_mem _ hf, .refl f⟩
  | @doom g rest d hr hg =>
    rw [hg] at hf
    rcases List.mem_cons.1 hf with rfl | hf
    · exact ⟨_, List.mem_cons_self, rfl, fun _ h => h, fun h => h, nofun⟩
    · exact ⟨f, List.mem_cons_of_mem _ hf, .refl f⟩
  | claim u => exact ⟨f, List.mem_cons_of_mem _ hf, .refl f⟩
  | join index => exact Frame.exists_joinCycleAbove index hf

namespace Evaluator

variable {e : Evaluator S α} {f : Frame S}

theorem reader?_of_top {rest : List (Frame S)} (h : e.frames = f :: rest) :
    e.reader? = some f.unit.id := by
  rw [reader?, h]
  rfl

theorem exists_top (hnodup : (e.frames.map fun f => f.unit.id).Nodup) (hf : f ∈ e.frames)
    (hr : e.reader? = some f.unit.id) : ∃ rest, e.frames = f :: rest := by
  cases hframes : e.frames with
  | nil =>
    rw [hframes] at hf
    cases hf
  | cons g rest =>
    rw [hframes] at hf hnodup
    rw [reader?_of_top hframes] at hr
    rcases List.mem_cons.1 hf with rfl | hf
    · exact ⟨rest, rfl⟩
    · refine absurd (List.mem_map.2 ⟨f, hf, ?_⟩) (List.nodup_cons.1 hnodup).1
      exact (Option.some.inj hr).symm

end Evaluator

/-! ## The way of a value -/

/-- The cell holds the value that was stored, as a final one if it was stored as such. -/
structure CellValue.Keeps {β : Type} (v : β) (firm : Prop) (x : CellValue β) : Prop where
  value : x.value? = some v
  final : firm → x = .forced v

/-- What the end of a run leaves in a cell in which its body has stored `v`. -/
inductive Left (c : S.Key) (v : S.Val c) (firm : Prop) :
    Except Error Unit → Status → CellValue (S.Val c) → Prop where
  | success : Left c v firm (.ok ()) .success (.forced v)
  | provisional : Left c v firm (.ok ()) .new (.soft v)
  | failed : Left c v firm (.ok ()) .fail (.forced (S.sentinel c))
  | broken {error : Error} {x : CellValue (S.Val c)} (hx : x.Keeps v firm) :
    Left c v firm (.error error) .fail x

/-- What the cell holds while the run comes to its end. -/
inductive Leaving (c : S.Key) (v : S.Val c) (firm : Prop) (f : Frame S) :
    Except Error Unit → List (Write S) → CellValue (S.Val c) → Prop where
  | success (hd : f.doomed = false) (hh : f.head = none) :
    Leaving c v firm f (.ok ()) [] (.forced v)
  | provisional (hd : f.doomed = false) (hh : f.head.isSome = true) :
    Leaving c v firm f (.ok ()) [] (.soft v)
  | failed {writes : List (Write S)} {x : CellValue (S.Val c)} (hd : f.doomed = true)
    (hx : x = .forced (S.sentinel c) ∨ .force c (S.sentinel c) ∈ writes) :
    Leaving c v firm f (.ok ()) writes x
  | broken {error : Error} {x : CellValue (S.Val c)} (hx : x.Keeps v firm) :
    Leaving c v firm f (.error error) [] x

/-- What the cell holds as long as nobody else writes to it. -/
inductive Holds (id : UnitId) (c : S.Key) (v : S.Val c) (firm : Prop) (f : Frame S)
    (e : Evaluator S α) (x : CellValue (S.Val c)) : Prop where
  | stored (hx : x.Keeps v firm)
    (hf : e.reader? = some id → ∀ result, e.focus ≠ .closing result)
  | due (hfirm : firm) {rest : List (Write S)} (hw : e.writes = .force c v :: rest)
    (hr : e.reader? = some id) (hf : ∀ result, e.focus ≠ .closing result)
  | leaving (result : Except Error Unit) (hr : e.reader? = some id)
    (hf : e.focus = .closing result) (hx : Leaving c v firm f result e.writes x)

variable {m : Model S} {pick : Nat} {w w' : World S} {e e' : Evaluator S α} {f : Frame S}
  {id : UnitId} {c : S.Key} {v : S.Val c} {firm : Prop}

theorem exists_holds_of_fills (hstep : e.step m pick w = some (w', e'))
    (ht : Deed.Fills id c v ⟨w, e, w', e'⟩) :
    ∃ f ∈ e'.frames, f.unit.id = id ∧ c ∈ f.fills ∧
      (f.head = none → f.doomed = false → Deed.Firm ⟨w, e, w', e'⟩) ∧
      Holds id c v (Deed.Firm ⟨w, e, w', e'⟩) f e' (w'.cell c).value := by
  have hr : e.request? = some (.fill c v) := ht.2
  have hreader : e.reader? = some id := ht.1
  obtain ⟨g, hhead, hid⟩ := Option.map_eq_some_iff.1 hreader
  obtain ⟨rest, hframes⟩ := List.head?_eq_some_iff.1 hhead
  have hfirm : Deed.Firm ⟨w, e, w', e'⟩ ↔ g.head = none ∧ g.doomed = false := by
    rw [Deed.Firm, hhead]
    simp
  obtain ⟨next, hserve⟩ := e.serve_of_step hstep hr
  have hfill : (e.resume (next ())).fill w c v = (w', e') := Option.some.inj hserve
  unfold Evaluator.fill at hfill
  simp only [Evaluator.resume, hframes] at hfill
  have hc : c ∈ g.fills ++ [c] := List.mem_append_right _ (List.mem_singleton.2 rfl)
  cases hsoft : g.head.isSome || g.doomed with
  | true =>
    rw [hsoft] at hfill
    cases hfill
    have hnot : ¬Deed.Firm ⟨w, e, _, _⟩ := fun hf => by
      obtain ⟨hh, hd⟩ := hfirm.1 hf
      rw [hh, hd] at hsoft
      cases hsoft
    refine ⟨_, List.mem_cons_self, hid, hc, fun hh hd => hfirm.2 ⟨hh, hd⟩, .stored ⟨?_, ?_⟩ fun _ _ hf => by cases hf⟩
    · rw [World.soften]
      change ((w.setValue c (.soft v)).cell c).value.value? = some v
      rw [w.cell_setValue_self]
      rfl
    · exact fun hf => absurd hf hnot
  | false =>
    rw [hsoft] at hfill
    cases hfill
    refine ⟨_, List.mem_cons_self, hid, hc, fun hh hd => hfirm.2 ⟨hh, hd⟩,
      .due (hfirm.2 ?_) rfl ?_ fun _ hf => by cases hf⟩
    · rw [Bool.or_eq_false_iff] at hsoft
      exact ⟨Option.not_isSome_iff_eq_none.1 (by rw [hsoft.1]; decide), hsoft.2⟩
    · exact congrArg some hid

namespace Holds

theorem of_value {x x' : CellValue (S.Val c)} (h : Holds id c v firm f e x) (hx : x' = x) :
    Holds id c v firm f e x' :=
  hx ▸ h

/-- A body that is not the unit's own runs, or the unit's own has not ended. -/
theorem keeps {x : CellValue (S.Val c)} (h : Holds id c v firm f e x) (hw : e.writes = [])
    (hf : e.reader? = some id → ∀ result, e.focus ≠ .closing result) : x.Keeps v firm := by
  cases h with
  | stored hx => exact hx
  | due _ hdue =>
    rw [hw] at hdue
    cases hdue
  | leaving result hr hclosing => exact absurd hclosing (hf hr result)

theorem write {next : Write S} {rest : List (Write S)} (hw : e.writes = next :: rest)
    (hown : ¬Deed.Overwrites id c v ⟨w, e, (e.write m w next rest).1, (e.write m w next rest).2⟩)
    (h : Holds id c v firm f e (w.cell c).value) :
    Holds id c v firm f (e.write m w next rest).2 ((e.write m w next rest).1.cell c).value := by
  cases next with
  | notify d hook y =>
    cases h with
    | stored hx hf => exact .stored hx hf
    | due _ hdue =>
      rw [hw] at hdue
      cases hdue
    | leaving result hr hf hx =>
      refine .leaving result hr hf ?_
      rw [hw] at hx
      cases hx with
      | failed hd hx =>
        refine .failed hd (hx.imp_right fun hmem => ?_)
        have hrest := (List.mem_cons.1 hmem).resolve_left nofun
        cases hpassed : (m.react d hook y w.env).2 with
        | none => simpa [Evaluator.write, hpassed] using hrest
        | some passed => simpa [Evaluator.write, hpassed] using .inr hrest
  | force d y =>
    have hvalue : ((e.write m w (.force d y) rest).1.cell c).value =
        ((w.setValue d (.forced y)).cell c).value := rfl
    by_cases hd : d = c
    · -- Only what the run itself calls for may be written here.
      subst hd
      rw [hvalue, w.cell_setValue_self]
      have hwrote : .wrote d (.forced y) ∈ e.occurrences w := by
        rw [Evaluator.occurrences, hw]
        exact List.mem_singleton.2 rfl
      obtain ⟨hr, hx⟩ := Deed.own_of_wrote hown hwrote
      simp only [hw] at hx
      cases h with
      | stored _ hf =>
        have hy : y = v := by
          split at hx
          · rename_i hclosing
            exact absurd hclosing (hf hr _)
          · exact CellValue.forced.inj hx
          all_goals contradiction
        subst hy
        exact .stored ⟨rfl, fun _ => rfl⟩ hf
      | due hfirm hdue _ hf =>
        rw [hw] at hdue
        cases hdue
        exact .stored ⟨rfl, fun _ => rfl⟩ fun _ => hf
      | leaving result _ hf hleaving =>
        rw [hw] at hleaving
        rw [hf] at hx
        cases hleaving with
        | failed hd _ => exact .leaving _ hr hf (.failed hd (.inl hx))
    · rw [hvalue, w.cell_setValue_ne _ hd]
      cases h with
      | stored hx hf => exact .stored hx hf
      | due _ hdue =>
        rw [hw] at hdue
        cases hdue
        exact absurd rfl hd
      | leaving result hr hf hx =>
        refine .leaving result hr hf ?_
        rw [hw] at hx
        cases hx with
        | failed hdoomed hx =>
          refine .failed hdoomed (hx.imp_right fun hmem => ?_)
          refine List.mem_append_right _ ((List.mem_cons.1 hmem).resolve_left fun heq => ?_)
          cases heq
          exact hd rfl

theorem close {rest : List (Frame S)} (hframes : e.frames = f :: rest) (hid : f.unit.id = id)
    (hc : c ∈ f.fills) (hfirm : f.head = none → f.doomed = false → firm) (hw : e.writes = [])
    (result : Except Error Unit) (hx : (w.cell c).value.Keeps v firm) :
    Holds id c v firm f (e.close w result).2 ((e.close w result).1.cell c).value := by
  have hr : some f.unit.id = some id := congrArg some hid
  unfold Evaluator.close
  rw [hframes]
  cases result with
  | error error =>
    refine .leaving (.error error) hr rfl ?_
    change Leaving c v firm f (.error error) e.writes _
    rw [hw]
    exact .broken hx
  | ok _ =>
    dsimp only
    cases hd : f.doomed with
    | true =>
      rw [if_pos rfl]
      exact .leaving (.ok ()) hr rfl (.failed hd (.inr (List.mem_map.2 ⟨c, hc, rfl⟩)))
    | false =>
      rw [if_neg Bool.false_ne_true]
      cases hh : f.head with
      | some head =>
        rw [if_pos Option.isSome_some, World.value_foldl_softened, if_pos hc,
          CellValue.softened_of_value? hx.value]
        refine .leaving (.ok ()) hr rfl ?_
        rw [hw]
        exact .provisional hd (by rw [hh]; rfl)
      | none =>
        rw [if_neg (show ¬(none : Option Nat).isSome = true from nofun), hx.final (hfirm hh hd)]
        refine .leaving (.ok ()) hr rfl ?_
        rw [hw]
        exact .success hd hh

theorem left {rest : List (Frame S)} (hframes : e.frames = f :: rest) (hid : f.unit.id = id)
    (hw : e.writes = []) {result : Except Error Unit} (hf : e.focus = .closing result)
    {x : CellValue (S.Val c)} (h : Holds id c v firm f e x) :
    Left c v firm result (f.outcome result).1 x := by
  have hr : e.reader? = some id := by rw [Evaluator.reader?_of_top hframes, hid]
  cases h with
  | stored _ hnot => exact absurd hf (hnot hr result)
  | due _ hdue =>
    rw [hw] at hdue
    cases hdue
  | leaving other _ hf' hx =>
    rw [hf] at hf'
    cases hf'
    rw [hw] at hx
    cases hx with
    | success hd hh =>
      rw [Frame.outcome, hd, hh]
      exact .success
    | provisional hd hh =>
      rw [Frame.outcome, hd, hh]
      exact .provisional
    | failed hd hx =>
      rw [Frame.outcome_of_doomed hd, hx.resolve_right List.not_mem_nil]
      exact .failed
    | broken hx => exact .broken hx

end Holds

theorem exists_holds_of_step (hstep : e.step m pick w = some (w', e'))
    (hnodup : (e.frames.map fun f => f.unit.id).Nodup) (hf : f ∈ e.frames) (hid : f.unit.id = id)
    (hends : ∀ result, ¬Deed.Ends id result ⟨w, e, w', e'⟩) :
    ∃ f' ∈ e'.frames, f.Ages f' ∧ (c ∈ f.fills → (f.head = none → f.doomed = false → firm) →
      ¬Deed.Overwrites id c v ⟨w, e, w', e'⟩ → Holds id c v firm f e (w.cell c).value →
      Holds id c v firm f' e' (w'.cell c).value) := by
  have hsame : ¬Deed.Overwrites id c v ⟨w, e, w', e'⟩ →
      (∀ x, ¬Deed.Own id c v x ⟨w, e, w', e'⟩) → (w'.cell c).value = (w.cell c).value :=
    fun hover hown => Evaluator.value_of_spares hstep (Deed.spares_of_own hover hown)
  cases hw : e.writes with
  | cons next rest =>
    have hwrite : e.write m w next rest = (w', e') := by
      rw [Evaluator.step, hw] at hstep
      exact Option.some.inj hstep
    obtain ⟨rfl, rfl⟩ := Prod.mk.inj hwrite.symm
    refine ⟨f, ?_, .refl f, fun _ _ hover h => h.write hw hover⟩
    cases next with
    | force | notify => exact hf
  | nil =>
    by_cases hclosing : ∃ result, e.focus = .closing result
    · -- The run of another unit is over.
      obtain ⟨result, hfocus⟩ := hclosing
      obtain ⟨g, hframes, hcells, ⟨outcome, hanswer⟩, -⟩ := e.settle_of_step hstep hw hfocus
      have hr : e.reader? ≠ some id := fun hr => hends result ⟨hr, hw, hfocus⟩
      have hg : g.unit.id ≠ id := fun hg => hr (by rw [Evaluator.reader?_of_top hframes, hg])
      refine ⟨f, ?_, .refl f, fun _ _ _ h => .stored ?_ fun _ other hother => ?_⟩
      · rw [hframes] at hf
        rcases List.mem_cons.1 hf with rfl | hf
        · exact absurd hid hg
        · exact hf
      · rw [World.cell, hcells]
        exact h.keeps hw fun hr' => absurd hr' hr
      · rw [hanswer] at hother
        cases hother
    have hnot : ∀ result, e.focus ≠ .closing result := fun result hf => hclosing ⟨result, hf⟩
    have hshift := e.shift_of_step hstep fun _ => hnot
    by_cases hpure : ∃ result, e.focus = .act (.body (.pure result))
    · obtain ⟨result, hfocus⟩ := hpure
      have hclose : e.close w result = (w', e') := by
        rw [Evaluator.step, hw] at hstep
        simp only [hfocus] at hstep
        exact Option.some.inj hstep
      have hframes : e'.frames = e.frames := by
        rw [show e' = (e.close w result).2 from by rw [hclose]]
        unfold Evaluator.close
        dsimp only
        repeat' split
        all_goals rfl
      refine ⟨f, by rw [hframes]; exact hf, .refl f, fun hc hfirm hover h => ?_⟩
      have hx := h.keeps hw fun _ => hnot
      by_cases hr : e.reader? = some id
      · obtain ⟨rest, htop⟩ := e.exists_top hnodup hf (hid ▸ hr)
        have hleaving := Holds.close (w := w) htop hid hc hfirm hw result hx
        rw [hclose] at hleaving
        exact hleaving
      · refine .stored ?_ fun hr' => ?_
        · rw [hsame hover fun _ hown => hr hown.1]
          exact hx
        · rw [Evaluator.reader?, hframes] at hr'
          exact absurd hr' hr
    · obtain ⟨f', hf', hages⟩ := hshift.frames.exists_ages hf
      refine ⟨f', hf', hages, fun _ _ hover h => .stored ?_ fun _ result hresult => ?_⟩
      · rw [hsame hover fun x hown => ?_]
        · exact h.keeps hw fun _ => hnot
        · obtain ⟨-, hown⟩ := hown
          simp only [hw] at hown
          split at hown
          all_goals first
            | contradiction
            | exact hpure ⟨_, ‹_›⟩
      · rcases hshift.focus result hresult with hfocus | hfocus
        · exact hnot result hfocus
        · exact hpure ⟨result, hfocus⟩

namespace Team

variable {home : SchedulerId} {x : Team S α} {issued : List (WorkUnit S.Rule)}
  {log newer older during : List (Deed S α)} {t : Deed S α}

structure Ongoing (x : Team S α) (during : List (Deed S α)) (id : UnitId) (c : S.Key)
    (v : S.Val c) (firm : Prop) : Prop where
  unended : ∀ r ∈ during, ∀ result, ¬r.Ends id result
  holds : ∃ e ∈ x.members, ∃ f ∈ e.frames, f.unit.id = id ∧ c ∈ f.fills ∧
    (f.head = none → f.doomed = false → firm) ∧ ((∀ r ∈ during, ¬r.Overwrites id c v) →
      Holds id c v firm f e (x.world.cell c).value)

/-- That run is over. What it has left in the cell is still there if nobody has written to
the cell, neither during the run nor later. -/
def Concluded (home : SchedulerId) (x : Team S α) (newer : List (Deed S α)) (id : UnitId)
    (c : S.Key) (v : S.Val c) (firm : Prop) : Prop :=
  ∃ later s during result status, newer = later ++ s :: during ∧ s.Ends id result ∧
    (∀ r ∈ during, ∀ other, ¬r.Ends id other) ∧
    (s.after.scheduler home).status? id = some status ∧
    ((∀ r ∈ during, ¬r.Overwrites id c v) → (∀ r ∈ later, r.Spares c) →
      Left c v firm result status (x.world.cell c).value)

theorem Orderly.reader?_ne {before after : List (Evaluator S α)} {d : Evaluator S α}
    (ho : Orderly home ⟨w, before ++ e :: after⟩ issued) (hd : d ∈ before ++ after)
    (hf : f ∈ d.frames) : e.reader? ≠ some f.unit.id := by
  intro hr
  obtain ⟨g, hg, hid⟩ := Option.map_eq_some_iff.1 hr
  exact ho.apart hd hf (List.mem_of_mem_head? hg) hid

theorem Ongoing.step {before after : List (Evaluator S α)} {elsewhere : S.Key → Bool}
    (h : Ongoing ⟨w, before ++ e :: after⟩ during id c v firm)
    (ho : Orderly home ⟨w, before ++ e :: after⟩ issued)
    (hstep : e.step m pick { w with elsewhere } = some (w', e')) :
    Ongoing ⟨w', before ++ e' :: after⟩ (⟨{ w with elsewhere }, e, w', e'⟩ :: during) id c v firm ∨
      Concluded home ⟨w', before ++ e' :: after⟩ (⟨{ w with elsewhere }, e, w', e'⟩ :: during)
        id c v firm := by
  obtain ⟨hunended, a, ha, f, hf, hid, hc, hfirm, hholds⟩ := h
  have he : e ∈ before ++ e :: after := by simp
  rcases mem_splice.1 ha with rfl | hae
  · by_cases hends : ∃ result, Deed.Ends id result ⟨{ w with elsewhere }, a, w', e'⟩
    · obtain ⟨result, hr, hw, hfocus⟩ := hends
      obtain ⟨rest, hframes⟩ := a.exists_top (ho.nodup a he) hf (hid ▸ hr)
      obtain ⟨g, hg, hcells, -, hscheduler⟩ := a.settle_of_step hstep hw hfocus
      obtain rfl : f = g := (List.cons.inj (hframes.symm.trans hg)).1
      refine .inr ⟨[], _, during, result, (f.outcome result).1, rfl, ⟨hr, hw, hfocus⟩, hunended, ?_,
        fun hover _ => ?_⟩
      · have hlt := (ho.held a he f hf).lt_size
        have hsettled := hscheduler (by rw [ho.at_home a he]; exact ho.exists_home)
        rw [ho.at_home a he] at hsettled
        change (w'.scheduler home).status? id = _
        rw [hsettled, ← hid]
        exact (Scheduler.status?_settle _ hlt _ _).trans (if_pos rfl)
      · have hvalue : (w'.cell c).value = (w.cell c).value := by
          rw [World.cell, hcells]
          rfl
        rw [hvalue]
        exact (hholds hover).left hframes hid hw hfocus
    · have hnot : ∀ result, ¬Deed.Ends id result ⟨{ w with elsewhere }, a, w', e'⟩ :=
        fun result hr => hends ⟨result, hr⟩
      obtain ⟨f', hf', hages, hnext⟩ :=
        exists_holds_of_step (c := c) (v := v) hstep (ho.nodup a he) hf hid hnot
      refine .inl ⟨List.forall_mem_cons.2 ⟨hnot, hunended⟩, e', by simp, f', hf',
        by rw [hages.unit, hid], hages.fills hc,
        fun hh hd => hfirm (hages.head hh) (hages.doomed hd), fun hover => ?_⟩
      obtain ⟨hover, hbefore⟩ := List.forall_mem_cons.1 hover
      exact hnext hc hfirm hover (hholds hbefore)
  · -- Somebody else takes the step.
    have hr : e.reader? ≠ some id := hid ▸ ho.reader?_ne hae hf
    refine .inl ⟨List.forall_mem_cons.2 ⟨fun _ hends => hr hends.1, hunended⟩, a,
      mem_splice.2 (.inr hae), f, hf, hid, hc, hfirm, fun hover => ?_⟩
    obtain ⟨hover, hbefore⟩ := List.forall_mem_cons.1 hover
    refine (hholds hbefore).of_value ?_
    exact Evaluator.value_of_spares hstep (Deed.spares_of_own hover fun _ hown => hr hown.1)

theorem Concluded.step {before after : List (Evaluator S α)} {elsewhere : S.Key → Bool}
    (h : Concluded home ⟨w, before ++ e :: after⟩ newer id c v firm)
    (hstep : e.step m pick { w with elsewhere } = some (w', e')) :
    Concluded home ⟨w', before ++ e' :: after⟩ (⟨{ w with elsewhere }, e, w', e'⟩ :: newer) id c v
      firm := by
  obtain ⟨later, s, during, result, status, rfl, hs, hunended, hstatus, hleft⟩ := h
  refine ⟨_ :: later, s, during, result, status, rfl, hs, hunended, hstatus,
    fun hover hspares => ?_⟩
  obtain ⟨hspared, hspares⟩ := List.forall_mem_cons.1 hspares
  have hvalue : (w'.cell c).value = (w.cell c).value := Evaluator.value_of_spares hstep hspared
  rw [hvalue]
  exact hleft hover hspares

theorem Account.ongoing_or_concluded (h : Account m home x issued log)
    (hlog : log = newer ++ t :: older) (ht : t.Fills id c v) :
    Ongoing x newer id c v t.Firm ∨ Concluded home x newer id c v t.Firm := by
  induction h generalizing newer with
  | start => simp at hlog
  | @hire x issued log hx worker a ih =>
    refine (ih hlog).imp (fun h => ⟨h.unended, ?_⟩) fun h => h
    obtain ⟨e, he, hf⟩ := h.holds
    exact ⟨e, List.mem_append_left _ he, hf⟩
  | @resume w before after e issued log hx b a hw hfocus ih =>
    refine (ih hlog).imp (fun h => ⟨h.unended, ?_⟩) fun h => h
    obtain ⟨d, hd, f, hf, hid, hc, hfirm, hholds⟩ := h.holds
    rcases mem_splice.1 hd with rfl | hd
    · refine ⟨d.resume (.top a), by simp, f, hf, hid, hc, hfirm, fun hover => ?_⟩
      refine .stored ((hholds hover).keeps hw fun _ result hresult => ?_) nofun
      rw [hfocus] at hresult
      cases hresult
    · exact ⟨d, mem_splice.2 (.inr hd), f, hf, hid, hc, hfirm, hholds⟩
  | @step w w' before after e e' issued log hx pick elsewhere hasks hstep ih =>
    cases newer with
    | nil =>
      obtain ⟨rfl, rfl⟩ := List.cons.inj hlog
      obtain ⟨f, hf, hid, hc, hfirm, hholds⟩ := exists_holds_of_fills hstep ht
      exact .inl ⟨List.forall_mem_nil _, e', by simp, f, hf, hid, hc, hfirm, fun _ => hholds⟩
    | cons d newer =>
      obtain ⟨rfl, rfl⟩ := List.cons.inj hlog
      rcases ih rfl with h | h
      · exact h.step hx.reach.orderly hstep
      · exact .inr (h.step hstep)

theorem fail_of_settled {u : WorkUnit S.Rule} (hw : e.writes = []) (hfocus : e.focus = .enter u)
    (hf : ∀ f ∈ e.frames, f.unit.id ≠ u.id)
    (hs : (w.scheduler e.home).status? u.id = some .fail) :
    e.step m pick w = some (w, e.reply (.ok .fail)) := by
  have hadmission : e.admission (w.scheduler e.home) u = .settled .fail := by
    rw [Evaluator.admission, Frame.indexOf?_eq_none_iff.2 hf]
    dsimp only
    rw [hs]
  rw [Evaluator.step, hw]
  simp only [hfocus, Evaluator.enter, hadmission]

/-- **What a failed unit leaves behind.** Once a unit has failed, every attempt to run it
gives that outcome. Each value that it has ever stored was stored in a run that is over by
now, and if nobody else has written to the cell since then, the cell holds the sentinel if
the body of that run had come to its end and failed, the value as a soft one if the unit was
to run again, and still the value if the body had ended in an error. In the last case the
value is final if the unit was neither part of a cycle nor marked when it was stored. -/
theorem remains_of_filled (h : Account m home x issued (newer ++ t :: older))
    (ht : t.Fills id c v) (hfail : (x.world.scheduler home).status? id = some .fail) :
    (∀ e ∈ x.members, ∀ u, u.id = id → e.writes = [] → e.focus = .enter u → ∀ pick elsewhere,
      e.step m pick { x.world with elsewhere } =
        some ({ x.world with elsewhere }, e.reply (.ok .fail))) ∧
    Concluded home x newer id c v t.Firm := by
  have ho := h.reach.orderly
  have hidle : ∀ e ∈ x.members, ∀ f ∈ e.frames, f.unit.id ≠ id := by
    rintro e he f hf rfl
    obtain ⟨status, hstatus, hrunning, -⟩ := (ho.held e he f hf).status
    rw [Option.some.inj (hstatus.symm.trans hfail)] at hrunning
    cases hrunning
  refine ⟨fun e he u hu hw hfocus pick elsewhere => ?_, ?_⟩
  · subst hu
    refine fail_of_settled hw hfocus (hidle e he) ?_
    rw [ho.at_home e he]
    exact hfail
  · rcases h.ongoing_or_concluded rfl ht with ⟨-, e, he, f, hf, hid, -⟩ | hconcluded
    · exact absurd hid (hidle e he f hf)
    · exact hconcluded

private def clumsy (r : Nat) : WorkUnit Nat := ⟨0, "clumsy", none, r, 0⟩

/-- A body that stores a value. Then it comes to its end, but fails on the way, or ends in
an error. -/
private def stumbling : Model sheet :=
  .ofBodies fun r => .ask (.fill (0 : Nat) (5 : Nat)) fun _ =>
    if r = (0 : Nat) then .ask (.fail ⟨.ruleViolation, "no", ⟨1, 1⟩⟩) fun _ => .pure (.ok ())
    else .pure (.error (.detached "clumsy"))

/-- A unit that fails after it has stored a value leaves the sentinel. -/
theorem remains_of_filled_failed : ∃ (x : Team sheet Unit) (newer older : List (Deed sheet Unit))
    (t : Deed sheet Unit), Account stumbling 0 x [clumsy 0] (newer ++ t :: older) ∧
      t.Fills 0 (0 : Nat) (5 : Nat) ∧ (x.world.scheduler 0).status? 0 = some .fail ∧
      (x.world.cell (0 : Nat)).value = .forced (99 : Nat) ∧
      Concluded 0 x newer 0 (0 : Nat) (5 : Nat) t.Firm := by
  have start := Account.start (α := Unit) (m := stumbling) _ fresh_sheet
  have hired := start.hire none (.ask (.register "clumsy" none (0 : Nat)) fun u =>
    .ask (.attempt u) fun _ => .pure ())
  have registered : Account stumbling 0 _ [clumsy 0] _ := hired.alone (nofun) rfl
  have asked : Account stumbling 0 _ [clumsy 0] _ :=
    registered.asking (v := clumsy 0) rfl (List.mem_singleton.2 rfl) rfl
  have claimed : Account stumbling 0 _ [clumsy 0] _ := asked.alone (nofun) rfl
  have filled : Account stumbling 0 _ [clumsy 0] _ := claimed.alone (nofun) rfl
  have stored : Account stumbling 0 _ [clumsy 0] _ := filled.alone (nofun) rfl
  have failed : Account stumbling 0 _ [clumsy 0] _ := stored.alone (nofun) rfl
  have closing : Account stumbling 0 _ [clumsy 0] _ := failed.alone (nofun) rfl
  have replaced : Account stumbling 0 _ [clumsy 0] _ := closing.alone (nofun) rfl
  have settled : Account stumbling 0 _ [clumsy 0] ([_, _, _, _, _] ++ _ :: _) :=
    replaced.alone (nofun) rfl
  exact ⟨_, _, _, _, settled, ⟨rfl, rfl⟩, rfl, rfl, (remains_of_filled settled ⟨rfl, rfl⟩ rfl).2⟩

/-- A unit that has stored a value and then ended in an error is asked for again. It has
failed, and the cell holds the value as a final one, to which nobody else has written. -/
theorem remains_of_filled_broken : ∃ (x : Team sheet Unit) (newer older : List (Deed sheet Unit))
    (t : Deed sheet Unit), Account stumbling 0 x [clumsy 1] (newer ++ t :: older) ∧
      t.Fills 0 (0 : Nat) (5 : Nat) ∧ (∀ r ∈ newer, ¬r.Overwrites 0 (0 : Nat) (5 : Nat)) ∧
      (x.world.scheduler 0).status? 0 = some .fail ∧
      (∃ e ∈ x.members, e.focus = .answer (.ok .fail)) ∧
      (x.world.cell (0 : Nat)).value = .forced (5 : Nat) ∧
      (x.world.cell (0 : Nat)).value ≠ .forced (sheet.sentinel (0 : Nat)) := by
  have start := Account.start (α := Unit) (m := stumbling) _ fresh_sheet
  have hired := start.hire none (.ask (.register "clumsy" none (1 : Nat)) fun u =>
    .ask (.attempt u) fun _ => .ask (.attempt u) fun _ => .pure ())
  have registered : Account stumbling 0 _ [clumsy 1] _ := hired.alone (nofun) rfl
  have asked : Account stumbling 0 _ [clumsy 1] _ :=
    registered.asking (v := clumsy 1) rfl (List.mem_singleton.2 rfl) rfl
  have claimed : Account stumbling 0 _ [clumsy 1] _ := asked.alone (nofun) rfl
  have filled : Account stumbling 0 _ [clumsy 1] _ := claimed.alone (nofun) rfl
  have stored : Account stumbling 0 _ [clumsy 1] _ := filled.alone (nofun) rfl
  have closing : Account stumbling 0 _ [clumsy 1] _ := stored.alone (nofun) rfl
  have settled : Account stumbling 0 _ [clumsy 1] _ := closing.alone (nofun) rfl
  have answered : Account stumbling 0 _ [clumsy 1] _ := settled.alone (nofun) rfl
  have again : Account stumbling 0 _ [clumsy 1] _ :=
    answered.asking (v := clumsy 1) rfl (List.mem_singleton.2 rfl) rfl
  have entered : Account stumbling 0 _ [clumsy 1] ([_, _, _, _, _, _] ++ _ :: _) :=
    again.alone (nofun) rfl
  refine ⟨_, _, _, _, entered, ⟨rfl, rfl⟩, ?_, rfl, ⟨_, List.mem_singleton.2 rfl, rfl⟩, rfl, nofun⟩
  -- The only write after the call is that of the value itself.
  iterate 5 refine List.forall_mem_cons.2 ⟨Deed.Spares.not_overwrites nofun nofun, ?_⟩
  refine List.forall_mem_singleton.2 ?_
  rintro (⟨u, hu⟩ | ⟨x, hx, hown⟩)
  · cases hu.2
  · cases List.mem_singleton.1 hx
    exact hown ⟨rfl, rfl⟩

end Team

end Attribution.Engine
