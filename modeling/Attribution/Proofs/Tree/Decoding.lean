import Attribution.Proofs.Tree.Layout
/-!
# Reading programs back

A tree can be read back from its root: first the outline that its nodes span
(`Tree.outline?`), then the program of that outline (`Outline.stmt?`). Reading the tree
of a program gives the program (`program?_ofProgram`). Its nodes are numbered in preorder,
know their places and have the layouts of their kinds (`Tree.WellFormed`).
-/

namespace Attribution

namespace Outline

mutual

def expr? : Outline → Option Expr
  | .mk (.bool value) _ [] => some (.bool value)
  | .mk (.int value) _ [] => some (.int value)
  | .mk (.name x) _ [] => some (.name x)
  | .mk (.unary op) _ [x] => return .unary op (← x.expr?)
  | .mk (.binary op) _ [x, y] => return .binary op (← x.expr?) (← y.expr?)
  | .mk (.call callee) _ xs => return .call callee (← exprs? xs)
  | _ => none

def exprs? : List Outline → Option (List Expr)
  | [] => some []
  | x :: rest => return (← x.expr?) :: (← exprs? rest)

end

mutual

def stmt? : Outline → Option Stmt
  | .mk .block _ xs => return .block (← stmts? xs)
  | .mk .exprStmt _ [x] => return .expr (← x.expr?)
  | .mk (.constDecl name) _ [x] => return .const name (← x.expr?)
  | .mk .ifThen _ [c, x] => return .ifThen (← c.expr?) (← x.stmt?) none
  | .mk .ifThen _ [c, x, y] => return .ifThen (← c.expr?) (← x.stmt?) (some (← y.stmt?))
  | .mk .whileLoop _ [c, x] => return .whileLoop (← c.expr?) (← x.stmt?)
  | .mk .doWhile _ [x, c] => return .doWhile (← x.stmt?) (← c.expr?)
  | .mk .switch _ (c :: xs) => return .switch (← c.expr?) (← cases? xs)
  | .mk (.labeled label) _ [x] => return .labeled label (← x.stmt?)
  | .mk (.breakTo label) _ [] => some (.breakTo label)
  | .mk (.continueTo label) _ [] => some (.continueTo label)
  | .mk .returns _ [] => some (.returns none)
  | .mk .returns _ [x] => return .returns (some (← x.expr?))
  | .mk (.throws type) _ [] => some (.throws type)
  | .mk .tryCatch _ (x :: clauses) => do
    let body ← x.stmt?
    let (catches, finalizer) ← clauses? clauses
    return .tryCatch body catches finalizer
  | _ => none

def stmts? : List Outline → Option (List Stmt)
  | [] => some []
  | x :: rest => return (← x.stmt?) :: (← stmts? rest)

def cases? : List Outline → Option (List Case)
  | [] => some []
  | .mk (.case isDefault) _ xs :: rest => return .mk isDefault (← stmts? xs) :: (← cases? rest)
  | _ => none

def clauses? : List Outline → Option (List Catch × Option Stmt)
  | [] => some ([], none)
  | [.mk .finallyClause _ [x]] => return ([], some (← x.stmt?))
  | .mk (.catchClause type) _ [x] :: rest => do
    let handler ← x.stmt?
    let (catches, finalizer) ← clauses? rest
    return (.mk type handler :: catches, finalizer)
  | _ => none

end

end Outline

namespace Expr

open Outline

mutual

theorem expr?_outline : ∀ (e : Expr) (line column : Nat),
    (e.outline line column).1.expr? = some e
  | .bool _, line, column | .int _, line, column | .name _, line, column => by
    rw [outline, expr?]
  | .unary op operand, line, column => by
    rw [outline, expr?, expr?_outline operand]
    rfl
  | .binary op left right, line, column => by
    rw [outline, expr?, expr?_outline left, expr?_outline right]
    rfl
  | .call callee args, line, column => by
    rw [outline, expr?, exprs?_outlineAll args]
    rfl

theorem exprs?_outlineAll : ∀ (es : List Expr) (line column : Nat),
    exprs? (outlineAll line column es).1 = some es
  | [], line, column => by
    rw [outlineAll, exprs?]
  | e :: rest, line, column => by
    rw [outlineAll, exprs?, expr?_outline e, exprs?_outlineAll rest]
    rfl

end

theorem expr?_outlineOn (e : Expr) (line : Nat) : (e.outlineOn line).expr? = some e :=
  e.expr?_outline line 1

end Expr

namespace Stmt

open Outline Attribution.Expr

mutual

theorem stmt?_outline : ∀ (s : Stmt) (line : Nat), (s.outline line).1.stmt? = some s
  | .block body, line => by
    rw [outline, stmt?, stmts?_outlineAll body]
    rfl
  | .expr value, line | .const _ value, line => by
    rw [outline, stmt?, expr?_outlineOn]
    rfl
  | .ifThen cond yes none, line => by
    simp only [outline, outlineOpt]
    rw [stmt?, expr?_outlineOn, stmt?_outline yes]
    rfl
  | .ifThen cond yes (some no), line => by
    simp only [outline, outlineOpt]
    rw [stmt?, expr?_outlineOn, stmt?_outline yes, stmt?_outline no]
    rfl
  | .whileLoop cond body, line | .doWhile body cond, line => by
    rw [outline, stmt?, expr?_outlineOn, stmt?_outline body]
    rfl
  | .switch selector cases, line => by
    rw [outline, stmt?, expr?_outlineOn, cases?_outlineCases cases]
    rfl
  | .labeled label body, line => by
    rw [outline, stmt?, stmt?_outline body]
    rfl
  | .breakTo _, line | .continueTo _, line | .throws _, line => by
    rw [outline, stmt?]
  | .returns none, line => by
    rw [outline, Option.toList_none, List.map_nil, stmt?]
  | .returns (some value), line => by
    rw [outline, Option.toList_some, List.map_cons, List.map_nil, stmt?, expr?_outlineOn]
    rfl
  | .tryCatch body catches finalizer, line => by
    simp only [outline, List.cons_append]
    rw [stmt?, stmt?_outline body,
      clauses?_outlineCatches catches _ (clauses?_outlineFinally finalizer _)]
    rfl

theorem stmts?_outlineAll : ∀ (body : List Stmt) (line : Nat),
    stmts? (outlineAll line body).1 = some body
  | [], line => by
    rw [outlineAll, stmts?]
  | s :: rest, line => by
    rw [outlineAll, stmts?, stmt?_outline s, stmts?_outlineAll rest]
    rfl

theorem cases?_outlineCases : ∀ (cases : List Case) (line : Nat),
    cases? (outlineCases line cases).1 = some cases
  | [], line => by
    rw [outlineCases, cases?]
  | .mk isDefault body :: rest, line => by
    rw [outlineCases, cases?, stmts?_outlineAll body, cases?_outlineCases rest]
    rfl

theorem clauses?_outlineCatches : ∀ (catches : List Catch) (line : Nat) {last : List Outline}
    {finalizer : Option Stmt}, clauses? last = some ([], finalizer) →
    clauses? ((outlineCatches line catches).1 ++ last) = some (catches, finalizer)
  | [], line, last, finalizer, h => by
    rw [outlineCatches, List.nil_append, h]
  | .mk type handler :: rest, line, last, finalizer, h => by
    rw [outlineCatches, List.cons_append, clauses?, stmt?_outline handler,
      clauses?_outlineCatches rest _ h]
    rfl

theorem clauses?_outlineFinally : ∀ (finalizer : Option Stmt) (line : Nat),
    clauses? (outlineFinally line finalizer).1 = some ([], finalizer)
  | none, line => by
    rw [outlineFinally, clauses?]
  | some s, line => by
    rw [outlineFinally, clauses?, stmt?_outline s]
    rfl

end

end Stmt

namespace Tree

/-- The outline of a node and of what is below it, down to the given depth. -/
def outlineTo (t : Tree) : Nat → NodeId → Option Outline
  | 0, _ => none
  | depth + 1, id => do
    let n ← t.node? id
    return .mk n.kind n.location (← n.children.mapM (t.outlineTo depth))

def outline? (t : Tree) : Option Outline :=
  t.outlineTo t.size t.root

def program? (t : Tree) : Option Stmt :=
  t.outline?.bind Outline.stmt?

def walkTo (t : Tree) : Nat → NodeId → List NodeId
  | 0, _ => []
  | depth + 1, id => id :: ((t.node? id).elim [] Node.children).flatMap (t.walkTo depth)

/-- The nodes met on a walk through a subtree, each before its children. -/
def walk (t : Tree) (id : NodeId) : List NodeId :=
  t.walkTo t.size id

def role? (t : Tree) (id : NodeId) : Option Role :=
  (t.node? id).map fun n => n.kind.role

/-- A tree whose nodes are numbered in preorder and have the layouts of their kinds. -/
structure WellFormed (t : Tree) : Prop where
  root : t.root = 0 ∧ 0 < t.size ∧ t.parent? 0 = none
  parent : ∀ id, id < t.size → id ≠ 0 → ∃ p, t.parent? id = some p ∧ p < id
  child : ∀ id n, t.node? id = some n → ∀ c ∈ n.children, c < t.size
  /-- A node stands in the list of its parent, at its index, and in no other. -/
  index : ∀ p m id n, t.node? p = some m → t.node? id = some n →
    ∀ i, m.children[i]? = some id ↔ n.parent = some p ∧ n.index = i
  ascending : ∀ id n, t.node? id = some n → n.children.Pairwise (· < ·)
  preorder : t.walk t.root = List.range t.size
  /-- The numbers of a subtree follow each other. -/
  interval : ∀ id, id < t.size → ∃ k, t.walk id = List.range' id k ∧
    ∀ m, m < t.size → (id ∈ t.lineage m ↔ id ≤ m ∧ m < id + k)
  layout : ∀ id n, t.node? id = some n → ∃ roles,
    n.children.map t.role? = roles.map some ∧ n.kind.Layout roles

end Tree

namespace Outline

variable {o : Outline} {r : RuleProvider} {x y : Site × Outline}

theorem mapM_kids {β : Type} {f : NodeId → Option β} {g : Site × Outline → β} :
    ∀ {zs : List (Site × Outline)}, (∀ z ∈ zs, f z.1.id = some (g z)) →
    (zs.map fun z => z.1.id).mapM f = some (zs.map g)
  | [], _ => rfl
  | z :: rest, h => by
    have hrest := mapM_kids fun y hy => h y (List.mem_cons_of_mem z hy)
    rw [List.map_cons, List.mapM_cons, h z List.mem_cons_self, hrest]
    rfl

theorem size_lt_of_mem_kids (hy : y ∈ o.kids r x) : y.2.size < x.2.size := by
  have hlt := lt_of_mem_offspring hy
  have hend := end_le_of_mem_offspring hy
  omega

theorem outlineTo_of_mem (hx : x ∈ o.table r) {depth : Nat} (hd : x.2.size ≤ depth) :
    (Tree.ofOutline o).outlineTo depth x.1.id = some x.2 := by
  induction depth generalizing x with
  | zero =>
    have hpos := x.2.size_pos
    omega
  | succ depth ih =>
    have hkids : ((nodeAt x).children).mapM ((Tree.ofOutline o).outlineTo depth) =
        some x.2.children := by
      rw [children_nodeAt (Tree.ofOutline o).constantOf (o.subject r) x,
        ← map_snd_kids (o := o) (r := r) x]
      apply mapM_kids
      intro z hz
      have hlt := size_lt_of_mem_kids hz
      exact ih (mem_table_of_mem_offspring hx hz) (by omega)
    rw [Tree.outlineTo, Tree.node?_of_mem hx, Option.bind_eq_bind, Option.bind_some, hkids]
    obtain ⟨site, kind, location, children⟩ := x
    rfl

theorem walkTo_of_mem (hx : x ∈ o.table r) {depth : Nat} (hd : x.2.size ≤ depth) :
    (Tree.ofOutline o).walkTo depth x.1.id = (o.subtree r x).map fun z => z.1.id := by
  induction depth generalizing x with
  | zero =>
    have hpos := x.2.size_pos
    omega
  | succ depth ih =>
    rw [Tree.walkTo, Tree.node?_of_mem hx, subtree, sites_eq, List.map_cons, List.map_flatMap]
    congr 1
    rw [Option.elim_some, children_nodeAt (Tree.ofOutline o).constantOf (o.subject r) x,
      List.flatMap_map]
    apply List.flatMap_congr
    intro z hz
    have hlt := size_lt_of_mem_kids hz
    exact ih (mem_table_of_mem_offspring hx hz) (by omega)

theorem end_le_of_mem_table (hx : x ∈ o.table r) : x.1.id + x.2.size ≤ o.size := by
  have hpos := x.2.size_pos
  have hle : x.1.id ≤ x.1.id + x.2.size - 1 := by omega
  obtain ⟨z, hz, hid⟩ := exists_of_id (κ := (Tree.ofOutline o).constantOf) (s := o.subject r)
    (o := x.2) hle (by omega)
  have hlt := id_lt_of_mem_table (mem_table_of_mem_subtree hx hz)
  omega

theorem walk_of_mem (hx : x ∈ o.table r) :
    (Tree.ofOutline o).walk x.1.id = List.range' x.1.id x.2.size := by
  have hend := end_le_of_mem_table hx
  rw [Tree.walk, walkTo_of_mem hx (by rw [Tree.size_ofOutline]; omega)]
  exact ids_sites x.1 x.2

theorem mem_lineage_iff_interval (hx : x ∈ o.table r) {m : NodeId} (hm : m < o.size) :
    x.1.id ∈ (Tree.ofOutline o).lineage m ↔ x.1.id ≤ m ∧ m < x.1.id + x.2.size := by
  obtain ⟨y, hy, rfl⟩ := exists_mem_table r hm
  rw [mem_lineage_iff hx hy]
  constructor
  · exact fun hmem => ⟨id_le_of_mem_subtree hmem, id_lt_of_mem hmem⟩
  · rintro ⟨hle, hlt⟩
    obtain ⟨z, hz, hid⟩ := exists_of_id (κ := (Tree.ofOutline o).constantOf) (s := o.subject r)
      (o := x.2) hle hlt
    rw [← eq_of_id_eq (mem_table_of_mem_subtree hx hz) hy hid]
    exact hz

theorem pairwise_childIds (cs : List Outline) : ∀ id, (childIds id cs).Pairwise (· < ·) := by
  induction cs with
  | nil => exact fun _ => .nil
  | cons c rest ih =>
    intro id
    rw [childIds, List.pairwise_cons]
    refine ⟨fun n hn => ?_, ih _⟩
    have hpos := c.size_pos
    exact Nat.lt_of_lt_of_le (by omega) (le_of_mem_childIds hn)

theorem children_get_iff (hy : y ∈ o.table r) (hx : x ∈ o.table r) (i : Nat) :
    (nodeAt y).children[i]? = some x.1.id ↔
      (nodeAt x).parent = some y.1.id ∧ (nodeAt x).index = i := by
  have hparent := parent?_eq_iff hy hx
  rw [Tree.parent?, Tree.node?_of_mem hx, Option.bind_some] at hparent
  rw [hparent, children_nodeAt (Tree.ofOutline o).constantOf (o.subject r) y, List.getElem?_map,
    Option.map_eq_some_iff]
  constructor
  · rintro ⟨z, hz, hid⟩
    have hmem := List.mem_of_getElem? hz
    obtain rfl := eq_of_id_eq (mem_table_of_mem_offspring hy hmem) hx hid
    exact ⟨hmem, (of_mem_offspring hz).2.1⟩
  · rintro ⟨hmem, rfl⟩
    obtain ⟨i, hi⟩ := List.mem_iff_getElem?.1 hmem
    refine ⟨x, ?_, rfl⟩
    rw [show (nodeAt x).index = i from (of_mem_offspring hi).2.1]
    exact hi

theorem roles_children (hx : x ∈ o.table r) :
    (nodeAt x).children.map (Tree.ofOutline o).role? = (x.2.children.map role).map some := by
  rw [children_nodeAt (Tree.ofOutline o).constantOf (o.subject r) x,
    ← map_snd_kids (o := o) (r := r) x, List.map_map, List.map_map, List.map_map]
  apply List.map_congr_left
  intro z hz
  rw [Function.comp_apply, Tree.role?, Tree.node?_of_mem (mem_table_of_mem_offspring hx hz)]
  rfl

theorem wellFormed_ofOutline (r : RuleProvider) (h : o.Laid) : (Tree.ofOutline o).WellFormed := by
  have hroot : (root, o) ∈ o.table r := self_mem_sites root o
  have hsite {id : NodeId} {n : Node} (hn : (Tree.ofOutline o).node? id = some n) :
      ∃ x ∈ o.table r, x.1.id = id ∧ n = nodeAt x := Tree.exists_site_of_node? _ _ hn
  have hsize := Tree.size_ofOutline o
  constructor
  case root =>
    refine ⟨rfl, ?_, parent?_root hroot⟩
    rw [hsize]
    exact o.size_pos
  case parent =>
    intro id hid hne
    rw [hsize] at hid
    obtain ⟨x, hx, rfl⟩ := exists_mem_table r hid
    rcases eq_root_or_mem_offspring o hx with rfl | ⟨y, hy, hxy⟩
    · exact absurd rfl hne
    · exact ⟨y.1.id, (parent?_eq_iff hy hx).2 hxy, lt_of_mem_offspring hxy⟩
  case child =>
    intro id n hn c hc
    obtain ⟨x, hx, rfl, rfl⟩ := hsite hn
    rw [children_nodeAt (Tree.ofOutline o).constantOf (o.subject r) x] at hc
    obtain ⟨z, hz, rfl⟩ := List.mem_map.1 hc
    exact Tree.id_lt_size (mem_table_of_mem_offspring hx hz)
  case index =>
    intro p m id n hm hn i
    obtain ⟨y, hy, rfl, rfl⟩ := hsite hm
    obtain ⟨x, hx, rfl, rfl⟩ := hsite hn
    exact children_get_iff hy hx i
  case ascending =>
    intro id n hn
    obtain ⟨x, hx, rfl, rfl⟩ := hsite hn
    exact pairwise_childIds x.2.children _
  case preorder =>
    rw [hsize, List.range_eq_range']
    exact walk_of_mem hroot
  case interval =>
    intro id hid
    rw [hsize] at hid
    obtain ⟨x, hx, rfl⟩ := exists_mem_table r hid
    refine ⟨x.2.size, walk_of_mem hx, fun m hm => ?_⟩
    rw [hsize] at hm
    exact mem_lineage_iff_interval hx hm
  case layout =>
    intro id n hn
    obtain ⟨x, hx, rfl, rfl⟩ := hsite hn
    exact ⟨_, roles_children hx, layout_of_mem o h hx⟩

end Outline

theorem program?_ofProgram (s : Stmt) : (Tree.ofProgram s).program? = some s := by
  have hroot : (Outline.root, (s.outline 0).1) ∈ (s.outline 0).1.table ({} : Rules) :=
    Outline.self_mem_sites _ _
  have hle : (s.outline 0).1.size ≤ (Tree.ofProgram s).size := (Tree.size_ofOutline _).ge
  have houtline : (Tree.ofProgram s).outline? = some (s.outline 0).1 :=
    Outline.outlineTo_of_mem hroot hle
  rw [Tree.program?, houtline, Option.bind_some, s.stmt?_outline]

/-- The tree of a program is well formed, and the program can be read back from it, so
different programs have different trees. -/
theorem ofProgram_lossless (s : Stmt) :
    (Tree.ofProgram s).WellFormed ∧ (Tree.ofProgram s).program? = some s ∧
      ∀ s', Tree.ofProgram s' = Tree.ofProgram s → s' = s := by
  refine ⟨Outline.wellFormed_ofOutline ({} : Rules) (s.laid_outline 0), program?_ofProgram s, ?_⟩
  intro s' h
  have hread := program?_ofProgram s'
  rw [h, program?_ofProgram s] at hread
  exact (Option.some.inj hread).symm

end Attribution
