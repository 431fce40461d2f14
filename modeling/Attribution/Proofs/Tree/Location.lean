import Attribution.Proofs.Semantics.Resolution
/-!
# Locations

Where the nodes of a program stand. The statements take one line each, in preorder,
at column 1; an expression stands on the line of its statement, except that the
condition of a do-while statement stands on the last line of the body. So two nodes may
share a location, and only there (`Stmt.located`).

An outline numbers its lines from left to right (`Spans`), and the columns of an
expression are numbered in preorder (`Expr.columns_outline`).
-/

namespace Attribution

namespace Outline

mutual

def preorder : Outline → List Outline
  | .mk kind location children => .mk kind location children :: preorderAll children

def preorderAll : List Outline → List Outline
  | [] => []
  | o :: rest => o.preorder ++ preorderAll rest

end

mutual

theorem map_snd_sites {κ : NodeId → Option Const} {s : Subject} {p : Site} :
    ∀ o : Outline, (o.sites κ s p).map Prod.snd = o.preorder
  | .mk kind location children => by
    rw [sites, List.map_cons, map_snd_sitesAll, preorder]

theorem map_snd_sitesAll {κ : NodeId → Option Const} {s : Subject} {p : Site} {o : Outline} :
    ∀ (cs : List Outline) {index id : Nat} {before : Option (Site × Flow)},
    (sitesAll κ s p o index id before cs).map Prod.snd = preorderAll cs
  | [], _, _, _ => by
    rw [sitesAll, preorderAll]
    rfl
  | c :: rest, _, _, _ => by
    rw [sitesAll, List.map_append, map_snd_sites, map_snd_sitesAll, preorderAll]

end

end Outline

/-! ## Columns -/

namespace Expr

open Outline

mutual

theorem last_outline : ∀ (e : Expr) (line column : Nat),
    (e.outline line column).2 = column + (e.outline line column).1.size
  | .bool _, line, column | .int _, line, column | .name _, line, column => by
    rw [outline, size, sizeAll]
  | .unary op operand, line, column => by
    rw [outline, size, sizeAll, sizeAll, last_outline operand]
    omega
  | .binary op left right, line, column => by
    rw [outline, size, sizeAll, sizeAll, sizeAll, last_outline right, last_outline left]
    omega
  | .call callee args, line, column => by
    rw [outline, size, last_outlineAll args]
    omega

theorem last_outlineAll : ∀ (es : List Expr) (line column : Nat),
    (outlineAll line column es).2 = column + sizeAll (outlineAll line column es).1
  | [], line, column => by
    rw [outlineAll, sizeAll]
    rfl
  | e :: rest, line, column => by
    rw [outlineAll, sizeAll, last_outlineAll rest, last_outline e]
    omega

end

mutual

/-- The nodes of an expression stand on its line, at consecutive columns. -/
theorem columns_outline : ∀ (e : Expr) (line column : Nat),
    (e.outline line column).1.preorder.map (fun x => (x.kind.isExpression, x.location)) =
      (List.range' (column + 1) (e.outline line column).1.size).map fun c => (true, ⟨line, c⟩)
  | .bool _, line, column | .int _, line, column | .name _, line, column => by
    rw [outline, size, sizeAll, preorder, preorderAll]
    rfl
  | .unary op operand, line, column => by
    rw [outline, size, sizeAll, sizeAll, preorder, preorderAll, preorderAll, List.append_nil,
      List.map_cons, columns_outline operand, Nat.add_zero, List.range'_succ, List.map_cons]
    rfl
  | .binary op left right, line, column => by
    rw [outline, size, sizeAll, sizeAll, sizeAll, preorder, preorderAll, preorderAll, preorderAll,
      List.append_nil, List.map_cons, List.map_append, columns_outline left, columns_outline right,
      last_outline left, Nat.add_zero, List.range'_succ, List.map_cons, ← List.range'_append_1,
      List.map_append, Nat.add_right_comm (column + 1) _ 1]
    rfl
  | .call callee args, line, column => by
    rw [outline, size, preorder, List.map_cons, columns_outlineAll args, List.range'_succ,
      List.map_cons]
    rfl

theorem columns_outlineAll : ∀ (es : List Expr) (line column : Nat),
    (preorderAll (outlineAll line column es).1).map (fun x => (x.kind.isExpression, x.location)) =
      (List.range' (column + 1) (sizeAll (outlineAll line column es).1)).map
        fun c => (true, ⟨line, c⟩)
  | [], line, column => by
    rw [outlineAll, sizeAll, preorderAll]
    rfl
  | e :: rest, line, column => by
    rw [outlineAll, sizeAll, preorderAll, List.map_append, columns_outline e,
      columns_outlineAll rest, last_outline e, ← List.range'_append_1, List.map_append,
      Nat.add_right_comm column _ 1]

end

theorem isExpression_of_mem {e : Expr} {line : Nat} {x : Outline}
    (hx : x ∈ (e.outlineOn line).preorder) : x.kind.isExpression = true := by
  have hmem := List.mem_map_of_mem (f := fun x => (x.kind.isExpression, x.location)) hx
  rw [outlineOn, columns_outline, List.mem_map] at hmem
  obtain ⟨c, -, hc⟩ := hmem
  exact (Prod.mk.inj hc).1.symm

end Expr

/-! ## Lines -/

/-- The line of the expressions of a node of a kind that takes the lines from `first` to
`last`. -/
def NodeKind.exprLine : NodeKind → Nat → Nat → Nat
  | .doWhile, _, last => last
  | _, first, _ => first

theorem NodeKind.exprLine_of_ne {kind : NodeKind} {first last : Nat} (h : kind ≠ .doWhile) :
    kind.exprLine first last = first := by
  cases kind with
  | doWhile => exact absurd rfl h
  | _ => rfl

namespace Outline

/-- Consecutive nodes that take the lines after `line` up to `last`. At most one of them is
an expression, and it stands on the line `on`. -/
inductive Spans : Option Nat → List Outline → Nat → Nat → Prop where
  | nil {on : Option Nat} {line : Nat} : Spans on [] line line
  | expr {on line last : Nat} {e : Expr} {rest : List Outline} :
    Spans none rest line last → Spans (some on) (e.outlineOn on :: rest) line last
  | stmt {on : Option Nat} {line middle last : Nat} {kind : NodeKind}
    {children rest : List Outline} :
    kind.isStatement = true →
    Spans (some (kind.exprLine (line + 1) middle)) children (line + 1) middle →
    Spans on rest middle last →
    Spans on (.mk kind ⟨line + 1, 1⟩ children :: rest) line last

variable {on : Option Nat} {line middle last : Nat} {xs ys : List Outline} {x : Outline}

theorem Spans.prepend (h : Spans none xs line middle) (h' : Spans on ys middle last) :
    Spans on (xs ++ ys) line last := by
  generalize hnone : none = on' at h
  induction h with
  | nil => exact h'
  | expr => cases hnone
  | stmt hk hchildren _ _ ih => exact .stmt hk hchildren (ih h' hnone)

theorem Spans.of_none (h : Spans none xs line last) : Spans on xs line last := by
  have happend : Spans on (xs ++ []) line last := h.prepend .nil
  rw [List.append_nil] at happend
  exact happend

theorem Spans.append (h : Spans on xs line middle) (h' : Spans none ys middle last) :
    Spans on (xs ++ ys) line last := by
  induction h with
  | nil => exact h'.of_none
  | expr _ ih => exact .expr (ih h')
  | stmt hk hchildren _ _ ih => exact .stmt hk hchildren (ih h')

theorem Spans.le (h : Spans on xs line last) : line ≤ last := by
  induction h with
  | nil => exact Nat.le_refl _
  | expr _ ih => exact ih
  | stmt _ _ _ ih ih' => omega

theorem Spans.lines (h : Spans on xs line last) :
    ((preorderAll xs).filter fun x => x.kind.isStatement).map location =
      (List.range' (line + 1) (last - line)).map fun l => ⟨l, 1⟩ := by
  induction h with
  | nil =>
    rw [preorderAll, Nat.sub_self]
    rfl
  | @expr on line last e rest _ ih =>
    have hnil : ((e.outlineOn on).preorder.filter fun x => x.kind.isStatement) = [] := by
      rw [List.filter_eq_nil_iff]
      intro x hx
      simp [NodeKind.isStatement, Expr.isExpression_of_mem hx]
    rw [preorderAll, List.filter_append, hnil, List.nil_append, ih]
  | @stmt on line middle last kind children rest hk hchildren hrest ih ih' =>
    have hle := hchildren.le
    have hle' := hrest.le
    have hlines : last - line = middle - (line + 1) + (last - middle) + 1 := by omega
    have hnext : middle + 1 = line + 1 + 1 + (middle - (line + 1)) := by omega
    rw [preorderAll, preorder, List.cons_append,
      List.filter_cons_of_pos (a := Outline.mk kind ⟨line + 1, 1⟩ children) hk, List.filter_append,
      List.map_cons, List.map_append, ih, ih', hlines, List.range'_succ, List.map_cons,
      ← List.range'_append_1, List.map_append, hnext]
    rfl

theorem Spans.of_mem (h : Spans on xs line last) (hx : x ∈ preorderAll xs)
    (hk : x.kind.isStatement = true) : ∃ first final, Spans none [x] first final := by
  induction h with
  | nil =>
    rw [preorderAll] at hx
    cases hx
  | expr _ ih =>
    rw [preorderAll, List.mem_append] at hx
    rcases hx with hx | hx
    · rw [NodeKind.isStatement, Expr.isExpression_of_mem hx] at hk
      cases hk
    · exact ih hx
  | stmt hkind hchildren _ ih ih' =>
    rw [preorderAll, preorder, List.cons_append, List.mem_cons, List.mem_append] at hx
    rcases hx with rfl | hx | hx
    · exact ⟨_, _, .stmt hkind hchildren .nil⟩
    · exact ih hx
    · exact ih' hx

/-- At most one node is an expression, and it stands on the line for it. -/
theorem Spans.expressions (h : Spans on xs line last) :
    (xs.filter fun x => x.kind.isExpression) = [] ∨
      ∃ l e, on = some l ∧ (xs.filter fun x => x.kind.isExpression) = [Expr.outlineOn l e] := by
  induction h with
  | nil => exact .inl rfl
  | @expr on line last e rest _ ih =>
    rcases ih with hnil | ⟨l, e, hl, -⟩
    · refine .inr ⟨on, e, rfl, ?_⟩
      rw [List.filter_cons_of_pos (a := e.outlineOn on) (e.isExpression_outline on 1), hnil]
    · cases hl
  | @stmt on line middle last kind children rest hk _ _ _ ih =>
    have hexpr : kind.isExpression = false := by simpa [NodeKind.isStatement] using hk
    rw [List.filter_cons_of_neg (a := Outline.mk kind ⟨line + 1, 1⟩ children)
      (ne_true_of_eq_false hexpr)]
    exact ih

theorem Spans.singleton (h : Spans none [x] line last) :
    x.kind.isStatement = true ∧ x.location = ⟨line + 1, 1⟩ ∧
      Spans (some (x.kind.exprLine (line + 1) last)) x.children (line + 1) last := by
  cases h with
  | stmt hk hchildren hrest =>
    cases hrest
    exact ⟨hk, rfl, hchildren⟩

end Outline

namespace Stmt

open Outline

mutual

theorem spans_outline : ∀ (s : Stmt) (line : Nat) (on : Option Nat),
    Spans on [(s.outline line).1] line (s.outline line).2
  | .block body, line, on => by
    rw [outline]
    exact .stmt rfl (spans_outlineAll body _ _) .nil
  | .expr value, line, on => by
    rw [outline]
    exact .stmt rfl (.expr .nil) .nil
  | .const name init, line, on => by
    rw [outline]
    exact .stmt rfl (.expr .nil) .nil
  | .ifThen cond yes no, line, on => by
    rw [outline]
    exact .stmt rfl (.expr ((spans_outline yes _ _).append (spans_outlineOpt no _))) .nil
  | .whileLoop cond body, line, on => by
    rw [outline]
    exact .stmt rfl (.expr (spans_outline body _ _)) .nil
  | .doWhile body cond, line, on => by
    rw [outline]
    exact .stmt rfl ((spans_outline body _ none).prepend (.expr .nil)) .nil
  | .switch selector cases, line, on => by
    rw [outline]
    exact .stmt rfl (.expr (spans_outlineCases cases _)) .nil
  | .labeled label body, line, on => by
    rw [outline]
    exact .stmt rfl (spans_outline body _ _) .nil
  | .breakTo _, line, on | .continueTo _, line, on | .throws _, line, on => by
    rw [outline]
    exact .stmt rfl .nil .nil
  | .returns none, line, on => by
    rw [outline]
    exact .stmt rfl .nil .nil
  | .returns (some value), line, on => by
    rw [outline]
    exact .stmt rfl (.expr .nil) .nil
  | .tryCatch body catches finalizer, line, on => by
    rw [outline]
    exact .stmt rfl (((spans_outline body _ _).append (spans_outlineCatches catches _)).append
      (spans_outlineFinally finalizer _)) .nil

theorem spans_outlineAll : ∀ (body : List Stmt) (line : Nat) (on : Option Nat),
    Spans on (outlineAll line body).1 line (outlineAll line body).2
  | [], line, on => by
    rw [outlineAll]
    exact .nil
  | s :: rest, line, on => by
    rw [outlineAll]
    exact (spans_outline s _ _).append (spans_outlineAll rest _ none)

theorem spans_outlineOpt : ∀ (no : Option Stmt) (line : Nat),
    Spans none (outlineOpt line no).1 line (outlineOpt line no).2
  | none, line => by
    rw [outlineOpt]
    exact .nil
  | some s, line => by
    rw [outlineOpt]
    exact spans_outline s _ _

theorem spans_outlineCases : ∀ (cases : List Case) (line : Nat),
    Spans none (outlineCases line cases).1 line (outlineCases line cases).2
  | [], line => by
    rw [outlineCases]
    exact .nil
  | .mk isDefault body :: rest, line => by
    rw [outlineCases]
    exact .stmt rfl (spans_outlineAll body _ _) (spans_outlineCases rest _)

theorem spans_outlineCatches : ∀ (catches : List Catch) (line : Nat),
    Spans none (outlineCatches line catches).1 line (outlineCatches line catches).2
  | [], line => by
    rw [outlineCatches]
    exact .nil
  | .mk type handler :: rest, line => by
    rw [outlineCatches]
    exact .stmt rfl (spans_outline handler _ _) (spans_outlineCatches rest _)

theorem spans_outlineFinally : ∀ (finalizer : Option Stmt) (line : Nat),
    Spans none (outlineFinally line finalizer).1 line (outlineFinally line finalizer).2
  | none, line => by
    rw [outlineFinally]
    exact .nil
  | some s, line => by
    rw [outlineFinally]
    exact .stmt rfl (spans_outline s _ _) .nil

end

end Stmt

/-! ## The nodes of a tree -/

namespace Outline

variable {o : Outline} {r : RuleProvider} {x y z a b : Site × Outline} {first final : Nat}

theorem map_snd_subtree (x : Site × Outline) : (o.subtree r x).map Prod.snd = x.2.preorder :=
  map_snd_sites x.2

theorem preorderAll_singleton (o : Outline) : preorderAll [o] = o.preorder := by
  rw [preorderAll, preorderAll, List.append_nil]

theorem spans_of_mem (ho : Spans none [o] first final) (hx : x ∈ o.table r)
    (hk : x.2.kind.isStatement = true) : ∃ line last, Spans none [x.2] line last := by
  apply ho.of_mem _ hk
  rw [preorderAll_singleton, ← map_snd_sites o]
  exact List.mem_map_of_mem hx

theorem column_eq_one (ho : Spans none [o] first final) (hx : x ∈ o.table r)
    (hk : x.2.kind.isStatement = true) : x.2.location.column = 1 := by
  obtain ⟨line, last, hspans⟩ := spans_of_mem ho hx hk
  rw [hspans.singleton.2.1]

/-- Statements stand on later lines than the statements before them. -/
theorem line_lt (ho : Spans none [o] first final) (ha : a ∈ o.table r) (hb : b ∈ o.table r)
    (hka : a.2.kind.isStatement = true) (hkb : b.2.kind.isStatement = true)
    (hlt : a.1.id < b.1.id) : a.2.location.line < b.2.location.line := by
  have hlines : (((o.table r).map Prod.snd).filter fun x => x.kind.isStatement).Pairwise
      fun u v => u.location.line < v.location.line := by
    have hmap := ho.lines
    rw [preorderAll_singleton, ← map_snd_sites (κ := (Tree.ofOutline o).constantOf)
      (s := o.subject r) (p := root) o] at hmap
    have hpairwise : ((List.range' (first + 1) (final - first)).map fun l =>
        (⟨l, 1⟩ : Location)).Pairwise fun u v => u.line < v.line :=
      List.pairwise_map.2 List.pairwise_lt_range'
    rw [← hmap] at hpairwise
    exact (List.pairwise_map (f := location) (R := fun u v => u.line < v.line)).1 hpairwise
  rw [List.pairwise_filter, List.pairwise_map, List.pairwise_iff_getElem] at hlines
  obtain ⟨hia, hgeta⟩ : ∃ h : a.1.id < (o.table r).length, (o.table r)[a.1.id] = a :=
    List.getElem?_eq_some_iff.1 (Tree.getElem?_sites_root ha)
  obtain ⟨hib, hgetb⟩ : ∃ h : b.1.id < (o.table r).length, (o.table r)[b.1.id] = b :=
    List.getElem?_eq_some_iff.1 (Tree.getElem?_sites_root hb)
  have h := hlines a.1.id b.1.id hia hib hlt
  rw [hgeta, hgetb] at h
  exact h hka hkb

theorem eq_of_line_eq (ho : Spans none [o] first final) (ha : a ∈ o.table r) (hb : b ∈ o.table r)
    (hka : a.2.kind.isStatement = true) (hkb : b.2.kind.isStatement = true)
    (h : a.2.location.line = b.2.location.line) : a = b := by
  rcases Nat.lt_trichotomy a.1.id b.1.id with hlt | heq | hlt
  · have hline := line_lt ho ha hb hka hkb hlt
    omega
  · exact eq_of_id_eq ha hb heq
  · have hline := line_lt ho hb ha hkb hka hlt
    omega

/-- The last line of a statement is that of the last statement inside. -/
theorem exists_last {line last : Nat} (ho : Spans none [o] first final) (hx : x ∈ o.table r)
    (h : Spans none [x.2] line last) : ∃ b ∈ o.subtree r x, b.2.kind.isStatement = true ∧
      b.2.location.line = last ∧
      ∀ c ∈ o.subtree r x, c.2.kind.isStatement = true → c.1.id ≤ b.1.id := by
  have hlines := h.lines
  have hle := h.singleton.2.2.le
  rw [preorderAll_singleton, ← map_snd_subtree (o := o) (r := r)] at hlines
  have hlast : (⟨last, 1⟩ : Location) ∈
      ((((o.subtree r x).map Prod.snd).filter fun x => x.kind.isStatement).map location) := by
    rw [hlines]
    exact List.mem_map.2 ⟨last, List.mem_range'_1.2 ⟨hle, by omega⟩, rfl⟩
  obtain ⟨u, hu, hloc⟩ := List.mem_map.1 hlast
  obtain ⟨hmem, hku⟩ := List.mem_filter.1 hu
  obtain ⟨b, hb, rfl⟩ := List.mem_map.1 hmem
  refine ⟨b, hb, hku, congrArg Location.line hloc, fun c hc hkc => ?_⟩
  by_contra hlt
  have hline := line_lt ho (mem_table_of_mem_subtree hx hb) (mem_table_of_mem_subtree hx hc) hku hkc
    (Nat.lt_of_not_le hlt)
  have hcloc : c.2.location ∈
      ((((o.subtree r x).map Prod.snd).filter fun x => x.kind.isStatement).map location) :=
    List.mem_map_of_mem (List.mem_filter.2 ⟨List.mem_map_of_mem hc, hkc⟩)
  rw [hlines] at hcloc
  obtain ⟨l, hl, hcl⟩ := List.mem_map.1 hcloc
  have hbound := (List.mem_range'_1.1 hl).2
  rw [hloc, ← hcl] at hline
  simp only at hline
  omega

/-- The statement `b` on whose line the expressions of `x` stand. -/
structure Carries (o : Outline) (r : RuleProvider) (x b : Site × Outline) : Prop where
  mem : b ∈ o.subtree r x
  isStatement : b.2.kind.isStatement = true
  eq_self : x.2.kind ≠ .doWhile → b = x
  last : x.2.kind = .doWhile → ∀ c ∈ o.subtree r x, c.2.kind.isStatement = true → c.1.id ≤ b.1.id

theorem eq_of_isExpression {on : Option Nat} {line last : Nat}
    (h : Spans on x.2.children line last) (hz : z ∈ o.kids r x) (hkz : z.2.kind.isExpression = true) :
    (∃ l e, on = some l ∧ z.2 = Expr.outlineOn l e) ∧
      ∀ y ∈ o.kids r x, y.2.kind.isExpression = true → y = z := by
  have hmap : ((o.kids r x).filter fun y => y.2.kind.isExpression).map Prod.snd =
      x.2.children.filter fun u => u.kind.isExpression := by
    rw [← map_snd_kids (o := o) (r := r) x, List.filter_map]
    rfl
  have hmem : z ∈ (o.kids r x).filter fun y => y.2.kind.isExpression :=
    List.mem_filter.2 ⟨hz, hkz⟩
  rcases h.expressions with hnil | ⟨l, e, hon, hsingle⟩
  · rw [hnil, List.map_eq_nil_iff] at hmap
    rw [hmap] at hmem
    cases hmem
  · rw [hsingle, List.map_eq_singleton_iff] at hmap
    obtain ⟨w, hw, hwe⟩ := hmap
    rw [hw, List.mem_singleton] at hmem
    subst hmem
    refine ⟨⟨l, e, hon, hwe⟩, fun y hy hky => ?_⟩
    have hmemy : y ∈ (o.kids r x).filter fun y => y.2.kind.isExpression :=
      List.mem_filter.2 ⟨hy, hky⟩
    rw [hw] at hmemy
    exact List.mem_singleton.1 hmemy

/-- The expression of a statement stands on the line of the statement that carries it. -/
theorem exists_carries (ho : Spans none [o] first final) (hx : x ∈ o.table r)
    (hk : x.2.kind.isStatement = true) : ∃ b, o.Carries r x b ∧
      ∀ z ∈ o.kids r x, z.2.kind.isExpression = true →
        (∃ e, z.2 = Expr.outlineOn b.2.location.line e) ∧
        ∀ y ∈ o.kids r x, y.2.kind.isExpression = true → y = z := by
  obtain ⟨line, last, hspans⟩ := spans_of_mem ho hx hk
  obtain ⟨-, hloc, hchildren⟩ := hspans.singleton
  have hexpr {b : Site × Outline} (hb : b.2.location.line = x.2.kind.exprLine (line + 1) last) :
      ∀ z ∈ o.kids r x, z.2.kind.isExpression = true →
        (∃ e, z.2 = Expr.outlineOn b.2.location.line e) ∧
        ∀ y ∈ o.kids r x, y.2.kind.isExpression = true → y = z := by
    intro z hz hkz
    obtain ⟨⟨l, e, hl, hze⟩, hunique⟩ := eq_of_isExpression hchildren hz hkz
    rw [hb, Option.some.inj hl]
    exact ⟨⟨e, hze⟩, hunique⟩
  by_cases hdo : x.2.kind = .doWhile
  · obtain ⟨b, hb, hkb, hline, hlast⟩ := exists_last ho hx hspans
    refine ⟨b, ⟨hb, hkb, fun hne => absurd hdo hne, fun _ => hlast⟩, hexpr ?_⟩
    rw [hline, hdo]
    rfl
  · refine ⟨x, ⟨self_mem_subtree x, hk, fun _ => rfl, fun h => absurd h hdo⟩, hexpr ?_⟩
    rw [hloc, NodeKind.exprLine_of_ne hdo]

theorem location_of_mem {line : Nat} {e : Expr} (hz : z.2 = e.outlineOn line)
    (ha : a ∈ o.subtree r z) : a.2.location = ⟨line, 2 + (a.1.id - z.1.id)⟩ := by
  have hget : (o.subtree r z)[a.1.id - z.1.id]? = some a := (getElem?_sites ha).2
  have hcolumns := e.columns_outline line 1
  rw [← Expr.outlineOn, ← hz, ← map_snd_subtree (o := o) (r := r), List.map_map] at hcolumns
  have hentry := congrArg (fun l => l[a.1.id - z.1.id]?) hcolumns
  have hlt : a.1.id - z.1.id < z.2.size := by
    rw [← length_sites (κ := (Tree.ofOutline o).constantOf) (s := o.subject r) z.1 z.2]
    exact (List.getElem?_eq_some_iff.1 hget).1
  simp only [List.getElem?_map, hget, List.getElem?_range' hlt, Option.map_some,
    Function.comp_apply, Option.some.injEq, Prod.mk.injEq, Nat.one_mul] at hentry
  exact hentry.2

theorem exists_owner (ho : Spans none [o] first final) (hx : x ∈ o.table r)
    (hk : x.2.kind.isExpression = true) : ∃ y ∈ o.table r, y.2.kind.isStatement = true ∧
      (∃ z ∈ o.kids r y, z.2.kind.isExpression = true ∧ x ∈ o.subtree r z) ∧
      (Tree.ofOutline o).Nearest (fun kind => kind.isStatement = true) x.1.id y.1.id := by
  induction hid : x.1.id using Nat.strongRecOn generalizing x with
  | _ id ih =>
    subst hid
    rcases eq_root_or_mem_offspring o hx with rfl | ⟨y, hy, hmem⟩
    · have hroot := ho.singleton.1
      rw [NodeKind.isStatement, hk] at hroot
      cases hroot
    · cases hkind : y.2.kind.isExpression with
      | false =>
        have hstatement : y.2.kind.isStatement = true := by
          rw [NodeKind.isStatement, hkind]
          rfl
        exact ⟨y, hy, hstatement, ⟨x, hmem, hk, self_mem_subtree x⟩,
          nearest_kid hy hmem hstatement⟩
      | true =>
        obtain ⟨w, hw, hkw, ⟨z, hz, hkz, hyz⟩, hnear⟩ :=
          ih y.1.id (lt_of_mem_offspring hmem) hy hkind rfl
        refine ⟨w, hw, hkw, ⟨z, hz, hkz, mem_sites_of_mem_offspring hyz hmem⟩,
          nearest_kid_of_not hy hmem ?_ hnear⟩
        simp [NodeKind.isStatement, hkind]

/-- The expression `x` belongs to the child `z` of the statement `y` and stands on the line of
the statement `b`. -/
structure Stands (o : Outline) (r : RuleProvider) (x y z b : Site × Outline) : Prop where
  owner : y ∈ o.table r
  nearest : (Tree.ofOutline o).Nearest (fun kind => kind.isStatement = true) x.1.id y.1.id
  kid : z ∈ o.kids r y
  isExpression : z.2.kind.isExpression = true
  only : ∀ w ∈ o.kids r y, w.2.kind.isExpression = true → w = z
  mem : x ∈ o.subtree r z
  carries : o.Carries r y b
  location : x.2.location = ⟨b.2.location.line, 2 + (x.1.id - z.1.id)⟩

theorem exists_stands (ho : Spans none [o] first final) (hx : x ∈ o.table r)
    (hk : x.2.kind.isExpression = true) : ∃ y z b, o.Stands r x y z b := by
  obtain ⟨y, hy, hky, ⟨z, hz, hkz, hxz⟩, hnear⟩ := exists_owner ho hx hk
  obtain ⟨b, hcarries, hexpr⟩ := exists_carries ho hy hky
  obtain ⟨⟨e, he⟩, honly⟩ := hexpr z hz hkz
  exact ⟨y, z, b, hy, hnear, hz, hkz, honly, hxz, hcarries, location_of_mem he hxz⟩

theorem isExpression_or_isStatement (kind : NodeKind) :
    kind.isExpression = true ∨ kind.isStatement = true := by
  cases h : kind.isExpression with
  | true => exact .inl rfl
  | false => exact .inr (by rw [NodeKind.isStatement, h]; rfl)

theorem isExpression_of_shared (ho : Spans none [o] first final) (hx : x ∈ o.table r)
    (hy : y ∈ o.table r) (hne : x ≠ y) (hloc : x.2.location = y.2.location) :
    x.2.kind.isExpression = true := by
  rcases isExpression_or_isStatement x.2.kind with hk | hk
  · exact hk
  · have hcolumn := column_eq_one ho hx hk
    rw [hloc] at hcolumn
    rcases isExpression_or_isStatement y.2.kind with hky | hky
    · obtain ⟨w, z, b, h⟩ := exists_stands ho hy hky
      rw [h.location] at hcolumn
      simp only at hcolumn
      omega
    · exact absurd (eq_of_line_eq ho hx hy hk hky (congrArg Location.line hloc)) hne

/-- Of two nodes that have a node in common, one stands inside the other. -/
theorem nested_of_mem (hx : x ∈ o.table r) (hy : y ∈ o.table r) (hb : b ∈ o.table r)
    (hbx : b ∈ o.subtree r x) (hby : b ∈ o.subtree r y) :
    x ∈ o.subtree r y ∨ y ∈ o.subtree r x := by
  induction hid : b.1.id using Nat.strongRecOn generalizing b with
  | _ id ih =>
    subst hid
    rcases eq_root_or_mem_offspring o hb with rfl | ⟨p, hp, hmem⟩
    · have hroot : x = (root, o) := eq_of_id_eq hx hb (Nat.le_zero.1 (id_le_of_mem_subtree hbx))
      subst hroot
      exact .inr hy
    · rcases (mem_subtree_kid_iff hx hp hmem).1 hbx with rfl | hpx
      · exact .inl hby
      · rcases (mem_subtree_kid_iff hy hp hmem).1 hby with rfl | hpy
        · exact .inr hbx
        · exact ih p.1.id (lt_of_mem_offspring hmem) hp hpx hpy rfl

/-- Where two statements carry their expressions on one line, the outer one is a do-while
statement. -/
theorem doWhile_of_carries (hx : x ∈ o.table r) (hne : x ≠ y) (hxb : o.Carries r x b)
    (hyb : o.Carries r y b) (h : y ∈ o.subtree r x) :
    x.2.kind = .doWhile ∧ (Tree.ofOutline o).Encloses x.1.id y.1.id := by
  have hy := mem_table_of_mem_subtree hx h
  have hencloses : (Tree.ofOutline o).Encloses x.1.id y.1.id :=
    ⟨(mem_lineage_iff hx hy).2 h, fun hid => hne (eq_of_id_eq hx hy hid)⟩
  refine ⟨?_, hencloses⟩
  by_contra hdo
  have hbx : b = x := hxb.eq_self hdo
  have hback : x ∈ o.subtree r y := hbx ▸ hyb.mem
  exact hne (eq_of_mem_subtree hx h hback).symm

theorem Stands.shared {x' y' z' b' : Site × Outline} (ho : Spans none [o] first final)
    (h : o.Stands r x y z b) (h' : o.Stands r x' y' z' b') (hx : x ∈ o.table r)
    (hx' : x' ∈ o.table r) (hne : x ≠ x') (hloc : x.2.location = x'.2.location) :
    (y.2.kind = .doWhile ∧ (Tree.ofOutline o).Encloses y.1.id y'.1.id) ∨
      (y'.2.kind = .doWhile ∧ (Tree.ofOutline o).Encloses y'.1.id y.1.id) := by
  rw [h.location, h'.location, Location.mk.injEq] at hloc
  obtain ⟨hline, hcolumn⟩ := hloc
  have hb := mem_table_of_mem_subtree h.owner h.carries.mem
  have hb' := mem_table_of_mem_subtree h'.owner h'.carries.mem
  have heq : b = b' :=
    eq_of_line_eq ho hb hb' h.carries.isStatement h'.carries.isStatement hline
  subst heq
  have howners : y ≠ y' := by
    rintro rfl
    have hz : z' = z := h.only z' h'.kid h'.isExpression
    subst hz
    have hle := id_le_of_mem_subtree h.mem
    have hle' := id_le_of_mem_subtree h'.mem
    exact hne (eq_of_id_eq hx hx' (by omega))
  rcases nested_of_mem h.owner h'.owner hb h.carries.mem h'.carries.mem with hin | hin
  · exact .inr (doWhile_of_carries h'.owner howners.symm h'.carries h.carries hin)
  · exact .inl (doWhile_of_carries h.owner howners h.carries h'.carries hin)

end Outline

namespace Tree

/-- The expressions of the statement `s` stand on the line of the statement `b`: of `s`
itself, unless that is a do-while statement, whose condition stands on the line of the
last statement inside. -/
def Carries (t : Tree) (s b : NodeId) : Prop :=
  (t.kind? s ≠ some .doWhile ∧ b = s) ∨
  (t.kind? s = some .doWhile ∧ t.isStatement b = true ∧ s ∈ t.lineage b ∧
    ∀ c, t.isStatement c = true → s ∈ t.lineage c → c ≤ b)

/-- Where the nodes of a tree stand. Two of them may share a location, but only if they are
expressions of different statements, the outer one of which is a do-while statement; so
the location of a statement determines the node. -/
structure Located (t : Tree) : Prop where
  column_statement : ∀ a m, t.node? a = some m → m.kind.isStatement = true →
    m.location.column = 1
  line_statement : ∀ a b m n, t.node? a = some m → t.node? b = some n →
    m.kind.isStatement = true → n.kind.isStatement = true → a < b →
    m.location.line < n.location.line
  line_expression : ∀ a m, t.node? a = some m → m.kind.isExpression = true →
    ∃ s b n, t.Nearest (fun kind => kind.isStatement = true) a s ∧ t.Carries s b ∧
      t.node? b = some n ∧ m.location.line = n.location.line
  shared : ∀ a b m n, t.node? a = some m → t.node? b = some n → a ≠ b →
    m.location = n.location →
    m.kind.isExpression = true ∧ n.kind.isExpression = true ∧
    ∃ s s', t.Nearest (fun kind => kind.isStatement = true) a s ∧
      t.Nearest (fun kind => kind.isStatement = true) b s' ∧
      ((t.kind? s = some .doWhile ∧ t.Encloses s s') ∨
        (t.kind? s' = some .doWhile ∧ t.Encloses s' s))

end Tree

namespace Outline

variable {o : Outline} {r : RuleProvider} {y b : Site × Outline}

theorem isStatement_iff (r : RuleProvider) {id : NodeId} :
    (Tree.ofOutline o).isStatement id = true ↔
      ∃ x ∈ o.table r, x.1.id = id ∧ x.2.kind.isStatement = true := by
  rw [Tree.isStatement, Option.any_eq_true]
  constructor
  · rintro ⟨n, hn, hk⟩
    obtain ⟨x, hx, rfl, rfl⟩ := Tree.exists_site_of_node? _ _ hn
    exact ⟨x, hx, rfl, hk⟩
  · rintro ⟨x, hx, rfl, hk⟩
    exact ⟨nodeAt x, node?_subject hx, hk⟩

theorem Carries.tree (h : o.Carries r y b) (hy : y ∈ o.table r) :
    (Tree.ofOutline o).Carries y.1.id b.1.id := by
  have hkind : (Tree.ofOutline o).kind? y.1.id = some y.2.kind := kind?_of_mem hy
  have hb := mem_table_of_mem_subtree hy h.mem
  by_cases hdo : y.2.kind = .doWhile
  · refine .inr ⟨hdo ▸ hkind, (isStatement_iff r).2 ⟨b, hb, rfl, h.isStatement⟩,
      (mem_lineage_iff hy hb).2 h.mem, fun c hc hmem => ?_⟩
    obtain ⟨x, hx, rfl, hk⟩ := (isStatement_iff r).1 hc
    exact h.last hdo x ((mem_lineage_iff hy hx).1 hmem) hk
  · refine .inl ⟨fun heq => hdo (Option.some.inj (hkind.symm.trans heq)), ?_⟩
    rw [h.eq_self hdo]

end Outline

/-- The nodes of every program stand where the rules above say. -/
theorem Stmt.located (program : Stmt) : (Tree.ofProgram program).Located := by
  have ho : Outline.Spans none [(program.outline 0).1] 0 (program.outline 0).2 :=
    program.spans_outline 0 none
  have hsite {a : NodeId} {m : Node} (h : (Tree.ofProgram program).node? a = some m) :
      ∃ x ∈ (program.outline 0).1.table (({} : Rules) : RuleProvider),
        x.1.id = a ∧ m = Outline.nodeAt x :=
    Tree.exists_site_of_node? _ _ h
  constructor
  case column_statement =>
    intro a m ha hk
    obtain ⟨x, hx, rfl, rfl⟩ := hsite ha
    exact Outline.column_eq_one ho hx hk
  case line_statement =>
    intro a b m n ha hb hka hkb hlt
    obtain ⟨x, hx, rfl, rfl⟩ := hsite ha
    obtain ⟨y, hy, rfl, rfl⟩ := hsite hb
    exact Outline.line_lt ho hx hy hka hkb hlt
  case line_expression =>
    intro a m ha hk
    obtain ⟨x, hx, rfl, rfl⟩ := hsite ha
    obtain ⟨y, z, b, h⟩ := Outline.exists_stands ho hx hk
    have hb := Outline.mem_table_of_mem_subtree h.owner h.carries.mem
    have hline : x.2.location.line = b.2.location.line := by rw [h.location]
    exact ⟨y.1.id, b.1.id, Outline.nodeAt b, h.nearest, h.carries.tree h.owner,
      Outline.node?_subject hb, hline⟩
  case shared =>
    intro a b m n ha hb hne hloc
    obtain ⟨x, hx, rfl, rfl⟩ := hsite ha
    obtain ⟨x', hx', rfl, rfl⟩ := hsite hb
    have hsites : x ≠ x' := fun heq => hne (congrArg (fun x => x.1.id) heq)
    have hk := Outline.isExpression_of_shared ho hx hx' hsites hloc
    have hk' := Outline.isExpression_of_shared ho hx' hx hsites.symm hloc.symm
    obtain ⟨y, z, b, h⟩ := Outline.exists_stands ho hx hk
    obtain ⟨y', z', b', h'⟩ := Outline.exists_stands ho hx' hk'
    have hkind : (Tree.ofProgram program).kind? y.1.id = some y.2.kind := kind?_of_mem h.owner
    have hkind' : (Tree.ofProgram program).kind? y'.1.id = some y'.2.kind := kind?_of_mem h'.owner
    refine ⟨hk, hk', y.1.id, y'.1.id, h.nearest, h'.nearest, ?_⟩
    rw [hkind, hkind', Option.some.injEq, Option.some.injEq]
    exact h.shared ho h' hx hx' hsites hloc

/-- `do 1; while (2)`. -/
def Stmt.countedOnce : Stmt :=
  .doWhile (.expr (.int 1)) (.int 2)

/-- The condition of a do-while statement may share its location with an expression of the
body: here both stand at 2:2, and the condition is not on the line of its statement. -/
theorem Stmt.locations_shared_countedOnce :
    ((Tree.ofProgram countedOnce).node? 2).map Node.location = some ⟨2, 2⟩ ∧
    ((Tree.ofProgram countedOnce).node? 3).map Node.location = some ⟨2, 2⟩ ∧
    (Tree.ofProgram countedOnce).parent? 3 = some 0 ∧
    ((Tree.ofProgram countedOnce).node? 0).map Node.location = some ⟨1, 1⟩ := by
  decide

end Attribution
