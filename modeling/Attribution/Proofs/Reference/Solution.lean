import Attribution.Proofs.Reference.Escape
/-!
# The reference solves the equations

The equation of every attribute reads only attributes that come before it, and its
value is the reference value whenever its reads are answered with reference values
(`equation_meets`).
-/

namespace Attribution

open Engine

namespace Outline

variable {o : Outline} {r : RuleProvider} {x y : Site × Outline}

section Equations

variable {exact : Prop}

/-! ## Constants -/

theorem reference_constant (o : Outline) (r : RuleProvider) (id : Nat) :
    o.reference r .constant id = (Tree.ofOutline o).constantOf id := by
  by_cases hlt : id < o.size
  · obtain ⟨x, hx, rfl⟩ := exists_mem_table r hlt
    exact reference_of_mem hx .constant
  · have hsite : (o.table r)[id]? = none := by
      rw [List.getElem?_eq_none_iff, table, length_sites]
      exact Nat.le_of_not_lt hlt
    have hnode : (Tree.ofOutline o).node? id = none := by
      rw [← Tree.size_ofOutline] at hlt
      exact Array.getElem?_eq_none_iff.2 (Nat.le_of_not_lt hlt)
    rw [reference, hsite, Tree.constantOf_eq, Tree.foldNode, hnode]
    rfl

theorem meets_valueOf {dep : Nat} {n : Node} (hx : x ∈ o.table r)
    (hd : (Tree.ofOutline o).Depends x.1.id dep) (hlt : dep < o.size) {post : Option Const → Prop}
    (h : ∀ v, (exact → v = (Tree.ofOutline o).constantOf dep) → post v) :
    ((o.subject r).valueOf x.1.id n dep).Meets (o.terms r exact .constant x.1.id) post := by
  refine ⟨⟨hlt, .inr (.inr ⟨rfl, rfl, hd⟩)⟩, fun p hp => ?_⟩
  have hvalue : exact → p.value = (Tree.ofOutline o).constantOf dep := fun he => by
    rw [(hp he).1, reference_constant]
  cases p with
  | ready v => exact h v hvalue
  | failed v => exact h v hvalue
  | cyclic v =>
    -- Who reads in a circle has no constant, and fails.
    have hnone : exact → (Tree.ofOutline o).constantOf dep = none := fun he => by
      rw [← reference_constant (r := r)]
      exact (hp he).2 rfl
    refine .bind (Equation.meets_failWith (fun he => ?_) (h none fun he => (hnone he).symm))
    rw [reference_of_mem hx]
    change (Tree.ofOutline o).constantOf x.1.id = none
    rw [Tree.constantOf_eq]
    exact Tree.foldNode_eq_none hd (hnone he)

theorem meets_valueOf_kid {n : Node} (hx : x ∈ o.table r) (hy : y ∈ o.kids r x)
    (hd : y.1.id ∈ (Tree.ofOutline o).operands x.1.id) {post : Option Const → Prop}
    (h : ∀ v, (exact → v = (Tree.ofOutline o).constantOf y.1.id) → post v) :
    ((o.subject r).valueOf x.1.id n y.1.id).Meets (o.terms r exact .constant x.1.id) post :=
  meets_valueOf hx hd (id_lt_of_mem_table (mem_table_of_mem_offspring hx hy)) h

theorem operands_node (hx : x ∈ o.table r) : (Tree.ofOutline o).operands x.1.id =
    match x.2.kind with
    | .constDecl _ => ((o.kids r x).map fun y => y.1.id).take 1
    | .name _ => ((Tree.ofOutline o).binding? x.1.id).toList
    | .unary _ => ((o.kids r x).map fun y => y.1.id).take 1
    | .binary _ => ((o.kids r x).map fun y => y.1.id).take 2
    | _ => [] := by
  have hnode : (Tree.ofOutline o).node? x.1.id = some (nodeAt x) := node?_subject hx
  rw [Tree.operands, hnode, ← children_nodeAt (Tree.ofOutline o).constantOf (o.subject r)]
  rfl

theorem constantOf_node (hx : x ∈ o.table r) : (Tree.ofOutline o).constantOf x.1.id =
    match x.2.kind, (Tree.ofOutline o).operands x.1.id with
    | .bool b, _ => some (.bool b)
    | .int i, _ => some (.int i)
    | .constDecl _, [u] | .name _, [u] => (Tree.ofOutline o).constantOf u
    | .unary op, [u] => ((Tree.ofOutline o).constantOf u).bind op.fold?
    | .binary op, [u, v] => ((Tree.ofOutline o).constantOf u).bind fun a =>
      ((Tree.ofOutline o).constantOf v).bind fun b => op.fold? a b
    | _, _ => none := by
  have hnode : (Tree.ofOutline o).node? x.1.id = some (nodeAt x) := node?_subject hx
  rw [Tree.constantOf_eq, Tree.foldNode, hnode]
  rfl

theorem binding?_lt {id d : Nat} (h : (Tree.ofOutline o).binding? id = some d) : d < o.size := by
  unfold Tree.binding? at h
  split at h
  · obtain ⟨before, after, hdecl, -⟩ := List.lookup_eq_some_iff.1 h
    rename_i name _ _ _ _ _
    have hmem : (name, d) ∈ (Tree.ofOutline o).declarations := by
      rw [hdecl]
      simp
    obtain ⟨⟨n, i⟩, hi, heq⟩ := List.mem_filterMap.1 hmem
    have hlt := (List.mem_zipIdx hi).2.1
    have hsize := Tree.size_ofOutline o
    split at heq
    · rename_i hpair
      cases hpair
      cases heq
      rw [← hsize]
      simpa [Tree.size, Tree.ofOutline] using hlt
    · cases heq
  · cases h

theorem meets_constant_declaration {name : String} {u : Site × Outline} (hx : x ∈ o.table r)
    (hk : x.2.kind = .constDecl name) (hkids : o.kids r x = [u]) :
    ((o.subject r).valueOf x.1.id (nodeAt x) u.1.id).Meets (o.terms r exact .constant x.1.id)
      fun v => exact → v = (Tree.ofOutline o).constantOf x.1.id := by
  have hoperands : (Tree.ofOutline o).operands x.1.id = [u.1.id] := by
    rw [operands_node hx, hk, hkids]
    rfl
  rw [constantOf_node hx, hk, hoperands]
  apply meets_valueOf_kid hx (hkids ▸ List.mem_cons_self) _ fun v hv => hv
  rw [hoperands]
  exact List.mem_cons_self

theorem meets_constant_name {name : String} (hx : x ∈ o.table r) (hk : x.2.kind = .name name) :
    Equation.Meets (o.terms r exact .constant x.1.id)
      (match (Tree.ofOutline o).binding? x.1.id with
        | some declaration => (o.subject r).valueOf x.1.id (nodeAt x) declaration
        | none => pure none)
      fun v => exact → v = (Tree.ofOutline o).constantOf x.1.id := by
  have hoperands : (Tree.ofOutline o).operands x.1.id =
      ((Tree.ofOutline o).binding? x.1.id).toList := by
    rw [operands_node hx, hk]
  rw [constantOf_node hx, hk, hoperands]
  cases hb : (Tree.ofOutline o).binding? x.1.id with
  | none => exact fun _ => rfl
  | some d =>
    apply meets_valueOf hx _ (binding?_lt hb) fun v hv => hv
    rw [Tree.Depends, hoperands, hb]
    exact List.mem_cons_self

theorem meets_constant_unary {op : UnaryOp} {u : Site × Outline} (hx : x ∈ o.table r)
    (hk : x.2.kind = .unary op) (hkids : o.kids r x = [u]) :
    Equation.Meets (o.terms r exact .constant x.1.id)
      (do
        let value ← (o.subject r).valueOf x.1.id (nodeAt x) (← (nodeAt x).child 0)
        return value.bind op.fold?)
      fun v => exact → v = (Tree.ofOutline o).constantOf x.1.id := by
  have hoperands : (Tree.ofOutline o).operands x.1.id = [u.1.id] := by
    rw [operands_node hx, hk, hkids]
    rfl
  rw [constantOf_node hx, hk, hoperands]
  have hu : (o.kids r x)[0]? = some u := by rw [hkids]; rfl
  refine .bind (meets_kid hu ?_)
  refine .bind (meets_valueOf_kid hx (List.mem_of_getElem? hu) ?_ fun v hv he => ?_)
  · rw [hoperands]
    exact List.mem_cons_self
  · rw [hv he]

theorem meets_constant_binary {op : BinaryOp} {u w : Site × Outline} (hx : x ∈ o.table r)
    (hk : x.2.kind = .binary op) (hkids : o.kids r x = [u, w]) :
    Equation.Meets (o.terms r exact .constant x.1.id)
      (do
        let left ← (o.subject r).valueOf x.1.id (nodeAt x) (← (nodeAt x).child 0)
        let right ← (o.subject r).valueOf x.1.id (nodeAt x) (← (nodeAt x).child 1)
        match left, right with
        | some left, some right => return op.fold? left right
        | _, _ => return none)
      fun v => exact → v = (Tree.ofOutline o).constantOf x.1.id := by
  have hoperands : (Tree.ofOutline o).operands x.1.id = [u.1.id, w.1.id] := by
    rw [operands_node hx, hk, hkids]
    rfl
  have hvalue : (Tree.ofOutline o).constantOf x.1.id =
      ((Tree.ofOutline o).constantOf u.1.id).bind fun a =>
        ((Tree.ofOutline o).constantOf w.1.id).bind fun b => op.fold? a b := by
    rw [constantOf_node hx, hk, hoperands]
  have hu : (o.kids r x)[0]? = some u := by rw [hkids]; rfl
  have hw : (o.kids r x)[1]? = some w := by rw [hkids]; rfl
  refine .bind (meets_kid hu ?_)
  refine .bind (meets_valueOf_kid hx (List.mem_of_getElem? hu) ?_ fun left hleft => ?_)
  · rw [hoperands]
    exact List.mem_cons_self
  refine .bind (meets_kid hw ?_)
  refine .bind (meets_valueOf_kid hx (List.mem_of_getElem? hw) ?_ fun right hright => ?_)
  · rw [hoperands]
    exact List.mem_cons_of_mem _ List.mem_cons_self
  cases left with
  | none =>
    refine fun he => ?_
    rw [hvalue, ← hleft he]
    rfl
  | some left =>
    cases right with
    | none =>
      refine fun he => ?_
      rw [hvalue, ← hleft he, ← hright he]
      rfl
    | some right =>
      refine fun he => ?_
      rw [hvalue, ← hleft he, ← hright he]
      rfl

theorem meets_constant (hs : o.Shaped) (hx : x ∈ o.table r) :
    ((o.subject r).constant x.1.id).Meets (o.terms r exact .constant x.1.id)
      fun v => exact → v = (Tree.ofOutline o).constantOf x.1.id := by
  have hfits := fits_of_mem o hs hx
  refine .bind (Subject.meets_node (node?_subject hx) ?_)
  rw [show (nodeAt x).kind = x.2.kind from rfl]
  cases hk : x.2.kind with
  | constDecl name =>
    rw [hk] at hfits
    obtain ⟨a, hchildren⟩ := hfits
    obtain ⟨u, hkids⟩ := kids_eq_singleton (o := o) (r := r) hchildren
    dsimp only
    rw [children_nodeAt (Tree.ofOutline o).constantOf (o.subject r),
      show x.2.offspring _ (o.subject r) x.1 = _ from hkids]
    exact meets_constant_declaration hx hk hkids
  | name name => exact meets_constant_name hx hk
  | unary op =>
    rw [hk] at hfits
    obtain ⟨a, hchildren, -⟩ := hfits
    obtain ⟨u, hkids⟩ := kids_eq_singleton (o := o) (r := r) hchildren
    exact meets_constant_unary hx hk hkids
  | binary op =>
    rw [hk] at hfits
    obtain ⟨a, b, hchildren, -⟩ := hfits
    obtain ⟨u, w, hkids⟩ := kids_eq_pair (o := o) (r := r) hchildren
    exact meets_constant_binary hx hk hkids
  | _ =>
    refine fun _ => ?_
    rw [constantOf_node hx, hk]

/-! ## All equations -/

/-- The equation of every attribute reads what comes before it, and its value is
the reference value if its reads are answered with reference values. -/
theorem equation_meets (hs : o.Shaped) (exact : Prop) (a : Attribute) {id : Nat}
    (hid : id < o.size) :
    ((o.subject r).equation a id).Meets (o.terms r exact a id)
      fun v => exact → v = o.reference r a id := by
  obtain ⟨x, hx, rfl⟩ := exists_mem_table r hid
  rw [reference_of_mem hx]
  have hescapes : ∀ j, o.valueAt r x (jumpAttr j) = (jumpAttr j).sentinel ↔
      labelsOf j (x.2.flow (Tree.ofOutline o).constantOf (o.subject r) x.1) = .empty := fun j => by
    cases j with
    | «break» => exact Iff.rfl
    | «continue» => exact Iff.rfl
  cases a with
  | reachable => exact meets_reachable hx
  | completes => exact meets_completes hs hx
  | breaks => exact meets_escapes .break hs hx (by rw [reference_of_mem hx]; exact hescapes .break)
  | continues =>
    exact meets_escapes .continue hs hx (by rw [reference_of_mem hx]; exact hescapes .continue)
  | propagated => exact meets_propagated hs hx
  | constant => exact meets_constant hs hx
  | unreachable => exact meets_unreachable hx
  | raised => exact meets_raised hx

end Equations

end Outline

end Attribution
