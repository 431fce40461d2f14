import Attribution.Label
/-!
# Membership in packed sets

Where only equal elements compare as equal, a packed set contains the elements of
its list, and the operations act on membership as they do on sets. Labels and
exception types are compared like that.
-/

namespace Attribution

namespace PackedSet

variable {α : Type}

@[simp] theorem toList_pack (xs : List α) : (pack xs).toList = xs := by
  match xs with
  | [] => rfl
  | [x] => rfl
  | x :: y :: rest => rfl

section Membership

variable [Ord α] [Std.LawfulEqOrd α] {s t : PackedSet α} {x y : α}

theorem contains_iff : s.contains x = true ↔ x ∈ s.toList := by
  rw [contains, List.any_eq_true]
  constructor
  · rintro ⟨y, hy, heq⟩
    have hxy : x = y := Std.LawfulEqOrd.eq_of_compare (beq_iff_eq.1 heq)
    rw [hxy]
    exact hy
  · intro hx
    exact ⟨x, hx, beq_iff_eq.2 Std.ReflOrd.compare_self⟩

theorem mem_place {xs : List α} : y ∈ place x xs ↔ y = x ∨ y ∈ xs := by
  induction xs with
  | nil => rw [place, List.mem_singleton, or_iff_left List.not_mem_nil]
  | cons z rest ih =>
    rw [place]
    cases h : compare x z with
    | lt => exact List.mem_cons
    | eq =>
      have hxz : x = z := Std.LawfulEqOrd.eq_of_compare h
      subst hxz
      constructor
      · exact .inr
      · rintro (rfl | hy)
        · exact List.mem_cons_self
        · exact hy
    | gt =>
      simp only [List.mem_cons, ih]
      exact or_left_comm

theorem mem_foldl_place {ys : List α} : ∀ {xs : List α},
    y ∈ ys.foldl (fun placed x => place x placed) xs ↔ y ∈ xs ∨ y ∈ ys := by
  induction ys with
  | nil =>
    intro xs
    rw [List.foldl_nil, or_iff_left List.not_mem_nil]
  | cons z rest ih =>
    intro xs
    rw [List.foldl_cons, ih, mem_place, List.mem_cons]
    exact or_assoc.trans or_left_comm

omit [Std.LawfulEqOrd α] in
theorem insert_of_contains (h : s.contains x = true) : s.insert x = s := by
  cases s with
  | empty => cases h
  | one z => exact if_pos h
  | many zs => exact if_pos h

omit [Std.LawfulEqOrd α] in
theorem insert_of_not_contains (h : ¬ s.contains x = true) :
    s.insert x = pack (place x s.toList) := by
  cases s with
  | empty => rfl
  | one z => exact if_neg h
  | many zs => exact if_neg h

theorem mem_insert : y ∈ (s.insert x).toList ↔ y = x ∨ y ∈ s.toList := by
  by_cases h : s.contains x = true
  · have hx : x ∈ s.toList := contains_iff.1 h
    rw [insert_of_contains h]
    constructor
    · exact .inr
    · rintro (rfl | hy)
      · exact hx
      · exact hy
  · rw [insert_of_not_contains h, toList_pack, mem_place]

theorem mem_union : y ∈ (s.union t).toList ↔ y ∈ s.toList ∨ y ∈ t.toList := by
  fun_cases union s t with
  | case1 => exact (or_iff_right List.not_mem_nil).symm
  | case2 => exact (or_iff_left List.not_mem_nil).symm
  | case3 _ x => rw [mem_insert, toList, List.mem_singleton, or_comm]
  | case4 x => rw [mem_insert, toList, List.mem_singleton]
  | case5 xs ys hall =>
    -- Every element of the second set is one of the first.
    have hsub : y ∈ ys → y ∈ xs := fun hy => contains_iff.1 (List.all_eq_true.1 hall y hy)
    exact (or_iff_left_of_imp hsub).symm
  | case6 xs ys => rw [toList_pack, mem_foldl_place, toList, toList]

omit [Std.LawfulEqOrd α] in
theorem without_of_contains (h : s.contains x = true) :
    s.without x = pack (s.toList.filter fun y => compare x y != .eq) := by
  cases s with
  | empty => cases h
  | one z =>
    have hz : compare x z = .eq := by simpa [contains, toList] using h
    have hfilter : ([z].filter fun y => compare x y != .eq) = [] := by simp [hz]
    rw [toList, hfilter]
    exact if_pos h
  | many zs => exact if_pos h

omit [Std.LawfulEqOrd α] in
theorem without_of_not_contains (h : ¬ s.contains x = true) : s.without x = s :=
  if_neg h

theorem mem_without : y ∈ (s.without x).toList ↔ y ∈ s.toList ∧ y ≠ x := by
  by_cases h : s.contains x = true
  · rw [without_of_contains h, toList_pack, List.mem_filter, bne_iff_ne, ne_eq,
      Std.LawfulEqOrd.compare_eq_iff_eq, eq_comm]
  · rw [without_of_not_contains h]
    refine (and_iff_left_of_imp ?_).symm
    rintro hy rfl
    exact h (contains_iff.2 hy)

theorem contains_union : (s.union t).contains x = true ↔
    s.contains x = true ∨ t.contains x = true := by
  rw [contains_iff, contains_iff, contains_iff, mem_union]

theorem contains_without : (s.without y).contains x = true ↔ s.contains x = true ∧ x ≠ y := by
  rw [contains_iff, contains_iff, mem_without]

theorem contains_retain {keep : α → Bool} :
    (s.retain keep).contains x = true ↔ s.contains x = true ∧ keep x = true := by
  rw [contains_iff, contains_iff, retain, toList_pack, List.mem_filter]

theorem contains_singleton : (singleton y).contains x = true ↔ x = y := by
  rw [contains_iff]
  exact List.mem_singleton

theorem contains_foldl_union {β : Type} {f : β → PackedSet α} {bs : List β} :
    ∀ {s : PackedSet α}, (bs.foldl (fun found b => found.union (f b)) s).contains x = true ↔
      s.contains x = true ∨ ∃ b ∈ bs, (f b).contains x = true := by
  induction bs with
  | nil =>
    intro s
    simp
  | cons b rest ih =>
    intro s
    rw [List.foldl_cons, ih, contains_union, or_assoc]
    simp only [List.mem_cons, exists_eq_or_imp]

end Membership

end PackedSet

instance : Std.LawfulEqOrd ExcType where
  compare_self := Std.ReflOrd.compare_self (α := String)
  eq_of_compare {a b} h := by
    have hname : a.name = b.name := Std.LawfulEqOrd.eq_of_compare h
    cases a
    cases b
    cases hname
    rfl

instance : Std.LawfulEqOrd JumpLabel where
  compare_self {a} := by
    cases a with
    | unlabeled => rfl
    | named label => exact Std.ReflOrd.compare_self (α := String)
  eq_of_compare {a b} h := by
    cases a with
    | unlabeled =>
      cases b with
      | unlabeled => rfl
      | named label => cases h
    | named label =>
      cases b with
      | unlabeled => cases h
      | named label' =>
        have hlabel : label = label' := Std.LawfulEqOrd.eq_of_compare h
        rw [hlabel]

end Attribution
