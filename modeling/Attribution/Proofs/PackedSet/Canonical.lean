import Attribution.Proofs.PackedSet
import Mathlib.Data.List.Sort
import Mathlib.Data.Set.Card
/-!
# Packed sets are canonical

Every set that the operations build has its elements in strictly ascending order, packed by
their number (`Canonical`). So a packed set is a finite set: the operations act on its elements
as the operations on sets do, and two of them are equal if they have the same elements.
-/

namespace Attribution

namespace PackedSet

variable {α : Type}

/-! ## Predicates with a state -/

section Sift

variable {σ : Type} (keep : σ → α → Bool × σ)

/-- The state of a predicate after it has been asked about the elements of a list. -/
def stateAfter (state : σ) (xs : List α) : σ :=
  xs.foldl (fun state x => (keep state x).2) state

/-- The predicate that also writes down what it is asked about. -/
def logging : List α × σ → α → Bool × (List α × σ) :=
  fun (log, state) x => ((keep state x).1, log ++ [x], (keep state x).2)

theorem sift_cons (state : σ) (x : α) (xs : List α) :
    (sift keep state (x :: xs)).1 =
      if (keep state x).1 then x :: (sift keep (keep state x).2 xs).1
      else (sift keep (keep state x).2 xs).1 :=
  rfl

theorem sift_sublist (xs : List α) : ∀ state, (sift keep state xs).1.Sublist xs := by
  induction xs with
  | nil => exact fun _ => List.nil_sublist _
  | cons x rest ih =>
    intro state
    rw [sift_cons]
    split
    · exact (ih _).cons_cons x
    · exact (ih _).cons x

/-- An element is kept if the predicate says so in the state that the elements before it leave. -/
theorem mem_sift_of_nodup {xs before after : List α} {x : α} (hxs : xs = before ++ x :: after)
    (hnodup : xs.Nodup) : ∀ state,
    x ∈ (sift keep state xs).1 ↔ (keep (stateAfter keep state before) x).1 = true := by
  subst hxs
  induction before with
  | nil =>
    intro state
    have hafter : x ∉ (sift keep (keep state x).2 after).1 := fun hx =>
      (List.nodup_cons.1 hnodup).1 ((sift_sublist keep after _).subset hx)
    rw [List.nil_append, sift_cons, stateAfter, List.foldl_nil]
    split
    · rename_i hkeep
      exact ⟨fun _ => hkeep, fun _ => List.mem_cons_self⟩
    · rename_i hkeep
      exact ⟨fun hx => absurd hx hafter, fun h => absurd h hkeep⟩
  | cons y rest ih =>
    intro state
    rw [List.cons_append, List.nodup_cons] at hnodup
    have hne : x ≠ y := by
      rintro rfl
      exact hnodup.1 (by simp)
    rw [List.cons_append, sift_cons, stateAfter, List.foldl_cons]
    split
    · rw [List.mem_cons, or_iff_right hne]
      exact ih hnodup.2 _
    · exact ih hnodup.2 _

/-- Writing down the questions changes no answer, and in the end they are the elements. -/
theorem sift_logging (xs : List α) : ∀ (log : List α) (state : σ),
    sift (logging keep) (log, state) xs =
      ((sift keep state xs).1, log ++ xs, (sift keep state xs).2) := by
  induction xs with
  | nil =>
    intro log state
    rw [List.append_nil]
    rfl
  | cons x rest ih =>
    intro log state
    simp only [sift, logging, ih, List.append_assoc, List.singleton_append]

theorem sift_snd (xs : List α) : ∀ state, (sift keep state xs).2 = stateAfter keep state xs := by
  induction xs with
  | nil => exact fun _ => rfl
  | cons x rest ih => exact fun _ => ih _

end Sift

/-! ## Elements -/

def elements (s : PackedSet α) : Set α :=
  { x | x ∈ s.toList }

@[simp] theorem mem_elements {s : PackedSet α} {x : α} : x ∈ s.elements ↔ x ∈ s.toList :=
  Iff.rfl

@[simp] theorem elements_pack (xs : List α) : (pack xs).elements = { x | x ∈ xs } := by
  ext x
  rw [mem_elements, toList_pack]
  rfl

theorem elements_retain (s : PackedSet α) (keep : α → Bool) :
    (s.retain keep).elements = { x ∈ s.elements | keep x = true } := by
  ext y
  rw [retain, elements_pack]
  exact List.mem_filter

theorem elements_retainWith {σ : Type} (s : PackedSet α) (keep : σ → α → Bool × σ) (state : σ) :
    (s.retainWith keep state).1.elements = { x | x ∈ (sift keep state s.toList).1 } :=
  elements_pack _

section Equality

variable [Ord α] [Std.LawfulEqOrd α]

theorem elements_ofList (xs : List α) : (ofList xs).elements = { x | x ∈ xs } := by
  ext y
  rw [ofList, elements_pack]
  exact mem_foldl_place.trans (or_iff_right List.not_mem_nil)

theorem elements_insert (s : PackedSet α) (x : α) :
    (s.insert x).elements = Insert.insert x s.elements := by
  ext y
  exact mem_insert

theorem elements_union (s t : PackedSet α) : (s.union t).elements = s.elements ∪ t.elements := by
  ext y
  exact mem_union

theorem elements_without (s : PackedSet α) (x : α) :
    (s.without x).elements = s.elements \ {x} := by
  ext y
  exact mem_without

end Equality

/-! ## The canonical form -/

section Form

variable [Ord α] {s : PackedSet α}

def Ascending (xs : List α) : Prop :=
  xs.Pairwise fun x y => compare x y = .lt

/-- The elements ascend, and none, one, or more of them are packed as such. -/
structure Canonical (s : PackedSet α) : Prop where
  ascending : Ascending s.toList
  packed : pack s.toList = s

/-- The sets that the operations build. -/
inductive Built : PackedSet α → Prop where
  | empty : Built .empty
  | default : Built default
  | singleton (x : α) : Built (.singleton x)
  | ofList (xs : List α) : Built (.ofList xs)
  | insert {s : PackedSet α} (hs : Built s) (x : α) : Built (s.insert x)
  | union {s t : PackedSet α} (hs : Built s) (ht : Built t) : Built (s.union t)
  | without {s : PackedSet α} (hs : Built s) (x : α) : Built (s.without x)
  | retain {s : PackedSet α} (hs : Built s) (keep : α → Bool) : Built (s.retain keep)
  | retainWith {s : PackedSet α} (hs : Built s) {σ : Type} (keep : σ → α → Bool × σ) (state : σ) :
    Built (s.retainWith keep state).1

theorem canonical_pack {xs : List α} (h : Ascending xs) : (pack xs).Canonical :=
  ⟨by rw [toList_pack]; exact h, by rw [toList_pack]⟩

theorem Ascending.sublist {xs ys : List α} (h : Ascending ys) (hxs : xs.Sublist ys) :
    Ascending xs :=
  List.Pairwise.sublist hxs h

/-- The number of elements can be read off the form, and the form off the number. -/
theorem Canonical.form_iff (h : s.Canonical) :
    (s = .empty ↔ s.size = 0) ∧ ((∃ x, s = .one x) ↔ s.size = 1) ∧
      ((∃ xs, s = .many xs) ↔ 2 ≤ s.size) := by
  rw [← h.packed, size, toList_pack]
  match s.toList with
  | [] => simp [pack]
  | [x] => simp [pack]
  | x :: y :: rest => simp [pack]

theorem Ascending.nodup [Std.LawfulEqOrd α] {xs : List α} (h : Ascending xs) : xs.Nodup :=
  h.imp fun hlt heq => by
    subst heq
    rw [Std.ReflOrd.compare_self] at hlt
    cases hlt

theorem Canonical.size_eq_ncard [Std.LawfulEqOrd α] (h : s.Canonical) :
    s.size = s.elements.ncard := by
  classical
  have hfinset : s.elements = ↑s.toList.toFinset := by
    ext x
    simp
  rw [hfinset, Set.ncard_coe_finset, List.toFinset_card_of_nodup h.ascending.nodup]
  rfl

/-- The operations on packed sets are those on sets. -/
structure Models (s t : PackedSet α) : Prop where
  empty : (PackedSet.empty : PackedSet α).elements = ∅
  default : (default : PackedSet α).elements = ∅
  singleton : ∀ x : α, (singleton x).elements = {x}
  ofList : ∀ xs : List α, (ofList xs).elements = { x | x ∈ xs }
  isEmpty : s.isEmpty = true ↔ s.elements = ∅
  contains : ∀ x, s.contains x = true ↔ x ∈ s.elements
  insert : ∀ x, (s.insert x).elements = Insert.insert x s.elements
  union : (s.union t).elements = s.elements ∪ t.elements
  without : ∀ x, (s.without x).elements = s.elements \ {x}
  retain : ∀ keep, (s.retain keep).elements = { x ∈ s.elements | keep x = true }
  /-- A predicate with a state is asked about each element once, in ascending order: that is
  what it has written down in the end. -/
  asked : ∀ (σ : Type) (keep : σ → α → Bool × σ) (state : σ),
    s.retainWith (logging keep) ([], state) =
      ((s.retainWith keep state).1, s.toList, (s.retainWith keep state).2)
  /-- It keeps those elements that it accepts in the state that it has come to by then. -/
  retainWith : ∀ (σ : Type) (keep : σ → α → Bool × σ) (state : σ),
    (s.retainWith keep state).2 = stateAfter keep state s.toList ∧
    (s.retainWith keep state).1.elements ⊆ s.elements ∧
    ∀ before x after, s.toList = before ++ x :: after →
      (x ∈ (s.retainWith keep state).1.elements ↔
        (keep (stateAfter keep state before) x).1 = true)

theorem Canonical.models [Std.LawfulEqOrd α] (hs : s.Canonical) (t : PackedSet α) : s.Models t where
  empty := by ext; simp [toList]
  default := by ext; simp [toList, Inhabited.default]
  singleton x := by ext; simp [toList, PackedSet.singleton]
  ofList := elements_ofList
  isEmpty := by
    have hfinite : s.elements.Finite := s.toList.finite_toSet
    rw [← Set.ncard_eq_zero hfinite, ← hs.size_eq_ncard, ← hs.form_iff.1]
    cases s with
    | empty => exact iff_of_true rfl rfl
    | one x => exact iff_of_false Bool.false_ne_true (by simp)
    | many xs => exact iff_of_false Bool.false_ne_true (by simp)
  contains _ := contains_iff
  insert := elements_insert s
  union := elements_union s t
  without := elements_without s
  retain := elements_retain s
  asked σ keep state := by
    simp only [PackedSet.retainWith, sift_logging, List.nil_append]
  retainWith σ keep state := by
    refine ⟨sift_snd keep _ state, fun x hx => ?_, fun before x after hsplit => ?_⟩
    · rw [elements_retainWith] at hx
      exact (sift_sublist keep _ state).subset hx
    · rw [elements_retainWith]
      exact mem_sift_of_nodup keep hsplit hs.ascending.nodup state

end Form

section Order

variable [Ord α] [Std.TransOrd α] [Std.LawfulEqOrd α] {s t r : PackedSet α}

theorem Ascending.place {xs : List α} (h : Ascending xs) (x : α) : Ascending (place x xs) := by
  induction xs with
  | nil => exact List.pairwise_singleton _ x
  | cons y rest ih =>
    obtain ⟨hy, hrest⟩ := List.pairwise_cons.1 h
    rw [PackedSet.place]
    cases hxy : compare x y with
    | lt =>
      refine List.pairwise_cons.2 ⟨fun z hz => ?_, h⟩
      rcases List.mem_cons.1 hz with rfl | hz
      · exact hxy
      · exact Std.TransCmp.lt_trans hxy (hy z hz)
    | eq => exact h
    | gt =>
      refine List.pairwise_cons.2 ⟨fun z hz => ?_, ih hrest⟩
      rcases mem_place.1 hz with rfl | hz
      · exact Std.OrientedCmp.lt_of_gt hxy
      · exact hy z hz

theorem Ascending.foldl_place (ys : List α) : ∀ {xs : List α}, Ascending xs →
    Ascending (ys.foldl (fun placed y => PackedSet.place y placed) xs) := by
  induction ys with
  | nil => exact fun h => h
  | cons y rest ih => exact fun h => ih (h.place y)

theorem Canonical.insert (hs : s.Canonical) (x : α) : (s.insert x).Canonical := by
  by_cases h : s.contains x = true
  · rw [insert_of_contains h]
    exact hs
  · rw [insert_of_not_contains h]
    exact canonical_pack (hs.ascending.place x)

theorem Canonical.union (hs : s.Canonical) (ht : t.Canonical) : (s.union t).Canonical := by
  fun_cases PackedSet.union s t with
  | case1 => exact ht
  | case2 => exact hs
  | case3 _ x => exact hs.insert x
  | case4 x => exact ht.insert x
  | case5 => exact hs
  | case6 xs ys => exact canonical_pack (Ascending.foldl_place ys hs.ascending)

omit [Std.TransOrd α] [Std.LawfulEqOrd α] in
theorem Canonical.without (hs : s.Canonical) (x : α) : (s.without x).Canonical := by
  by_cases h : s.contains x = true
  · rw [without_of_contains h]
    exact canonical_pack (hs.ascending.sublist List.filter_sublist)
  · rw [without_of_not_contains h]
    exact hs

/-- **Every operation** leads from canonical sets to a canonical one. -/
theorem Built.canonical (h : Built s) : s.Canonical := by
  induction h with
  | empty | default => exact canonical_pack (List.Pairwise.nil : Ascending ([] : List α))
  | singleton x => exact canonical_pack (List.pairwise_singleton _ x : Ascending [x])
  | ofList xs => exact canonical_pack (Ascending.foldl_place xs List.Pairwise.nil)
  | insert _ x ih => exact ih.insert x
  | union _ _ ihs iht => exact ihs.union iht
  | without _ x ih => exact ih.without x
  | retain _ keep ih => exact canonical_pack (ih.ascending.sublist List.filter_sublist)
  | retainWith _ keep state ih =>
    exact canonical_pack (ih.ascending.sublist (sift_sublist keep _ state))

theorem Canonical.eq_of_elements (hs : s.Canonical) (ht : t.Canonical)
    (h : s.elements = t.elements) : s = t := by
  have hirrefl : Std.Irrefl fun x y : α => compare x y = .lt :=
    ⟨fun _ hlt => by rw [Std.ReflOrd.compare_self] at hlt; cases hlt⟩
  have hantisymm : Std.Antisymm fun x y : α => compare x y = .lt :=
    ⟨fun _ _ hlt hgt => (Std.OrientedCmp.not_lt_of_lt hlt hgt).elim⟩
  have hlist : s.toList = t.toList :=
    List.Pairwise.eq_of_mem_iff hs.ascending ht.ascending fun x => Set.ext_iff.1 h x
  rw [← hs.packed, ← ht.packed, hlist]

/-- **Packed sets are canonical finite sets.** The sets that the operations build have the form
that their number of elements asks for, and list their elements in ascending order; the
operations are those on sets; sets with the same elements are equal, and so the laws of union
are equations. -/
theorem built_lawful (hs : Built s) (ht : Built t) (hr : Built r) :
    ((s = .empty ↔ s.elements.ncard = 0) ∧ ((∃ x, s = .one x) ↔ s.elements.ncard = 1) ∧
      ((∃ xs, s = .many xs) ↔ 2 ≤ s.elements.ncard)) ∧
    Ascending s.toList ∧ s.toList.length = s.size ∧ s.size = s.elements.ncard ∧
    s.Models t ∧ (s = t ↔ s.elements = t.elements) ∧
    (s.union t).union r = s.union (t.union r) ∧ s.union t = t.union s ∧ s.union s = s := by
  have hsize := hs.canonical.size_eq_ncard
  refine ⟨hsize ▸ hs.canonical.form_iff, hs.canonical.ascending, rfl, hsize, hs.canonical.models t,
    ⟨fun h => by rw [h], hs.canonical.eq_of_elements ht.canonical⟩, ?_, ?_, ?_⟩
  · apply ((hs.union ht).union hr).canonical.eq_of_elements (hs.union (ht.union hr)).canonical
    simp only [elements_union, Set.union_assoc]
  · apply (hs.union ht).canonical.eq_of_elements (ht.union hs).canonical
    rw [elements_union, elements_union, Set.union_comm]
  · apply (hs.union hs).canonical.eq_of_elements hs.canonical
    rw [elements_union, Set.union_self]

end Order

end PackedSet

/-! ## Labels and exception types -/

instance : Std.TransOrd ExcType :=
  inferInstanceAs (Std.TransCmp (compareOn ExcType.name))

instance : Std.TransOrd JumpLabel where
  eq_swap {a b} := by
    cases a with
    | unlabeled => cases b <;> rfl
    | named label =>
      cases b with
      | unlabeled => rfl
      | named label' => exact Std.OrientedOrd.eq_swap (α := String)
  isLE_trans {a b c} hab hbc := by
    cases a with
    | unlabeled => cases c <;> rfl
    | named label =>
      cases b with
      | unlabeled => cases hab
      | named label' =>
        cases c with
        | unlabeled => cases hbc
        | named label'' =>
          exact Std.TransOrd.isLE_trans (α := String) hab hbc

namespace PackedSet

/-- Three sets of labels, the last of which is left over from a larger one. -/
theorem built_lawful_labels :
    let s : LabelSet := .ofList [.named "b", .unlabeled, .named "b"]
    let t : LabelSet := .singleton (.named "a")
    let r : LabelSet := (s.union t).without .unlabeled
    Built s ∧ Built t ∧ Built r ∧ (s.union t).union r = s.union (t.union r) ∧
      s.union t = t.union s ∧ s.elements.ncard = 2 := by
  intro s t r
  have hs : Built s := .ofList _
  have ht : Built t := .singleton _
  have hr : Built r := (hs.union ht).without _
  obtain ⟨-, -, -, hsize, -, -, hassoc, hcomm, -⟩ := built_lawful hs ht hr
  exact ⟨hs, ht, hr, hassoc, hcomm, hsize.symm.trans (by decide)⟩

end PackedSet

end Attribution
