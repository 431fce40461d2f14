import Mathlib.Logic.Relation
import Attribution.Rules
/-!
# Hierarchies of exception types

Types are declared in any order, again, as their own parents or in a circle. Whatever the
declarations are, one type is a special case of another exactly if the parents that were
declared last lead up from the one to the other (`isSubtype_declareTypes`).
-/

namespace Attribution.Rules

open Relation

def declareTypes (r : Rules) (declarations : List (ExcType × Option ExcType)) : Rules :=
  declarations.foldl (fun r d => r.declareType d.1 d.2) r

/-- The last declaration of the type gives it this parent. -/
def LastParent (declarations : List (ExcType × Option ExcType)) (type parent : ExcType) : Prop :=
  ∃ before after, declarations = before ++ (type, some parent) :: after ∧ ∀ d ∈ after, d.1 ≠ type

def Parent (r : Rules) (type parent : ExcType) : Prop :=
  r.parent? type = some parent

variable {r : Rules}

/-- What a walk to `goal` has left behind when it comes to `type`: each type led to the next. -/
def Trail (r : Rules) (goal : ExcType) (seen : List ExcType) (type : ExcType) : Prop :=
  ∀ s ∈ seen, s ≠ goal ∧ ∀ parent, r.Parent s parent → parent ∈ type :: seen

namespace Trail

variable {goal type parent : ExcType} {seen : List ExcType}

theorem step (h : r.Trail goal seen type) (hne : type ≠ goal) (hp : r.Parent type parent) :
    r.Trail goal (type :: seen) parent := by
  intro s hs
  rcases List.mem_cons.1 hs with rfl | hs
  · refine ⟨hne, fun p hp' => ?_⟩
    rw [Option.some.inj (hp'.symm.trans hp)]
    exact List.mem_cons_self
  · exact ⟨(h s hs).1, fun p hp' => List.mem_cons_of_mem _ ((h s hs).2 p hp')⟩

/-- A walk that has come back has been everywhere it can come to. -/
theorem not_reaches (h : r.Trail goal seen type) (hseen : type ∈ seen) :
    ¬ReflTransGen r.Parent type goal := by
  intro hgoal
  have hall : ∀ a, ReflTransGen r.Parent type a → a ∈ seen := by
    intro a ha
    induction ha with
    | refl => exact hseen
    | tail _ hp ih =>
      rcases List.mem_cons.1 ((h _ ih).2 _ hp) with rfl | hmem
      · exact hseen
      · exact hmem
  exact (h goal (hall goal hgoal)).1 rfl

end Trail

theorem reaches_iff {goal type : ExcType} {seen : List ExcType} (h : r.Trail goal seen type) :
    r.reaches goal seen type = true ↔ ReflTransGen r.Parent type goal := by
  fun_induction reaches r goal seen type with
  | case1 seen => exact iff_of_true rfl .refl
  | case2 seen type hne hseen => exact iff_of_false Bool.false_ne_true (h.not_reaches hseen)
  | case3 seen type hne hseen parent hp hless ih =>
    rw [ih (h.step hne hp)]
    refine ⟨.head hp, fun hgoal => ?_⟩
    obtain heq | ⟨next, hnext, hrest⟩ := ReflTransGen.cases_head hgoal
    · exact absurd heq hne
    · rwa [Option.some.inj (hp.symm.trans hnext)]
  | case4 seen type hne hseen hnone =>
    refine iff_of_false Bool.false_ne_true fun hgoal => ?_
    obtain heq | ⟨next, hnext, -⟩ := ReflTransGen.cases_head hgoal
    · exact hne heq
    · cases hnone.symm.trans hnext

theorem isSubtype_iff {a b : ExcType} :
    r.isSubtype a b = true ↔ ReflTransGen r.Parent a b :=
  reaches_iff fun _ hs => absurd hs List.not_mem_nil

theorem types_declareTypes (declarations : List (ExcType × Option ExcType)) :
    (r.declareTypes declarations).types = declarations.reverse ++ r.types := by
  induction declarations generalizing r with
  | nil => rfl
  | cons d rest ih =>
    rw [declareTypes, List.foldl_cons, ← declareTypes, ih, List.reverse_cons, List.append_assoc]
    rfl

theorem parent_declareTypes (h : r.types = []) (declarations : List (ExcType × Option ExcType)) :
    (r.declareTypes declarations).Parent = LastParent declarations := by
  funext type parent
  apply propext
  rw [Parent, parent?_eq_some_iff, types_declareTypes, h, List.append_nil, List.lookup_eq_some_iff]
  constructor
  · rintro ⟨after, before, hsplit, hafter⟩
    refine ⟨before.reverse, after.reverse, ?_, fun d hd => ?_⟩
    · rw [← declarations.reverse_reverse, hsplit]
      simp
    · exact (bne_iff_ne.1 (hafter d (List.mem_reverse.1 hd))).symm
  · rintro ⟨before, after, rfl, hafter⟩
    refine ⟨after.reverse, before.reverse, by simp, fun d hd => ?_⟩
    exact bne_iff_ne.2 (hafter d (List.mem_reverse.1 hd)).symm

/-- **Subtyping.** Whatever is declared, the walk up the parents finds exactly what they lead
to, and so subtyping is a preorder; it is an order if nothing is its own ancestor. -/
theorem isSubtype_declareTypes (functions : List (String × List ExcType)) (strict : Bool)
    (declarations : List (ExcType × Option ExcType)) :
    let r := declareTypes { functions, strict } declarations
    (∀ a b, r.isSubtype a b = true ↔ ReflTransGen (LastParent declarations) a b) ∧
    (∀ a, r.isSubtype a a = true) ∧
    (∀ a b c, r.isSubtype a b = true → r.isSubtype b c = true → r.isSubtype a c = true) ∧
    ((∀ a, ¬TransGen (LastParent declarations) a a) →
      ∀ a b, r.isSubtype a b = true → r.isSubtype b a = true → a = b) := by
  intro r
  have hsub : ∀ a b, r.isSubtype a b = true ↔ ReflTransGen (LastParent declarations) a b := by
    intro a b
    rw [isSubtype_iff, show r.Parent = _ from parent_declareTypes rfl declarations]
  refine ⟨hsub, fun a => (hsub a a).2 .refl, fun a b c hab hbc => ?_, fun hacyclic a b hab hba => ?_⟩
  · exact (hsub a c).2 (((hsub a b).1 hab).trans ((hsub b c).1 hbc))
  · obtain heq | hup := reflTransGen_iff_eq_or_transGen.1 ((hsub a b).1 hab)
    · exact heq.symm
    · exact absurd (hup.trans_left ((hsub b a).1 hba)) (hacyclic a)

def redeclared : List (ExcType × Option ExcType) :=
  [(⟨"Io"⟩, some ⟨"Io"⟩), (⟨"Disk"⟩, some ⟨"Io"⟩), (⟨"Io"⟩, some ⟨"Any"⟩)]

private theorem lastParent_redeclared {a p : ExcType} (h : LastParent redeclared a p) :
    a = ⟨"Disk"⟩ ∧ p = ⟨"Io"⟩ ∨ a = ⟨"Io"⟩ ∧ p = ⟨"Any"⟩ := by
  rw [← parent_declareTypes (r := {}) rfl, Parent, parent?_eq_some_iff, types_declareTypes] at h
  obtain ⟨before, after, hsplit, hbefore⟩ := List.lookup_eq_some_iff.1 h
  rcases before with - | ⟨d, - | ⟨d', - | ⟨d'', rest⟩⟩⟩
  · cases hsplit
    exact .inr ⟨rfl, rfl⟩
  · cases hsplit
    exact .inl ⟨rfl, rfl⟩
  · -- The first declaration of `Io` is behind the other.
    cases hsplit
    exact absurd (hbefore _ List.mem_cons_self) (by decide)
  · have hlength := congrArg List.length hsplit
    simp [redeclared] at hlength

/-- The last declarations hold: `Disk` is below `Any`, and not the other way round. -/
theorem isSubtype_declareTypes_redeclared :
    (∀ a, ¬TransGen (LastParent redeclared) a a) ∧
    (declareTypes {} redeclared).isSubtype ⟨"Disk"⟩ ⟨"Any"⟩ = true ∧
    (declareTypes {} redeclared).isSubtype ⟨"Any"⟩ ⟨"Disk"⟩ = false := by
  have hacyclic : ∀ a, ¬TransGen (LastParent redeclared) a a := by
    -- Every parent is higher than what it is the parent of.
    let height (a : ExcType) : Nat := if a = ⟨"Any"⟩ then 2 else if a = ⟨"Io"⟩ then 1 else 0
    have hup : ∀ a b, TransGen (LastParent redeclared) a b → height a < height b := by
      intro a b hab
      induction hab with
      | single hp => rcases lastParent_redeclared hp with ⟨rfl, rfl⟩ | ⟨rfl, rfl⟩ <;> decide
      | tail _ hp ih =>
        refine Nat.lt_trans ih ?_
        rcases lastParent_redeclared hp with ⟨rfl, rfl⟩ | ⟨rfl, rfl⟩ <;> decide
    exact fun a ha => Nat.lt_irrefl _ (hup a a ha)
  obtain ⟨hsub, -, -, hantisymm⟩ := isSubtype_declareTypes [] false redeclared
  have hdisk : (declareTypes {} redeclared).isSubtype ⟨"Disk"⟩ ⟨"Any"⟩ = true := by
    refine (hsub _ _).2 (.head (b := ⟨"Io"⟩) ?_ (.single ?_))
    · exact ⟨[(⟨"Io"⟩, some ⟨"Io"⟩)], [(⟨"Io"⟩, some ⟨"Any"⟩)], rfl, by decide⟩
    · exact ⟨[(⟨"Io"⟩, some ⟨"Io"⟩), (⟨"Disk"⟩, some ⟨"Io"⟩)], [], rfl, by simp⟩
  refine ⟨hacyclic, hdisk, Bool.eq_false_iff.2 fun hany => ?_⟩
  exact absurd (hantisymm hacyclic _ _ hdisk hany) (by decide)

end Attribution.Rules
