import Mathlib.Data.Int.ModEq
import Attribution.Proofs.Semantics.Origin
/-!
# Arithmetic of constants

What the constant of an expression is, in terms of integers instead of words. Sums,
differences, products and negations may be computed exactly, and wrapped once at the end
(`Tree.Exact`). In general each operator is applied to the values of its operands
(`Tree.Evaluates`), which gives a value exactly if all operands have the right types and
no divisor is zero. The main statement is `Stmt.constant_wraps`.
-/

namespace Attribution

open Relation (ReflTransGen)

/-! ## Words and operators -/

theorem bmod_toInt (v : Int64) : v.toInt.bmod (2 ^ 64) = v.toInt := by
  rw [← Int64.ofInt_eq_iff_bmod_eq_toInt, Int64.ofInt_toInt]

theorem modEq_iff_eq_ofInt {v : Int64} {z : Int} : v.toInt ≡ z [ZMOD 2 ^ 64] ↔ v = .ofInt z := by
  rw [eq_comm (a := v), Int64.ofInt_eq_iff_bmod_eq_toInt]
  constructor
  · intro h
    rw [← bmod_toInt v, ← Int.emod_bmod z, ← Int.emod_bmod v.toInt]
    exact congrArg (Int.bmod · (2 ^ 64)) h.symm
  · intro h
    rw [← h]
    exact Int.bmod_emod

inductive ConstType where
  | bool
  | int
  deriving DecidableEq

def Const.type : Const → ConstType
  | .bool _ => .bool
  | .int _ => .int

namespace UnaryOp

def type : UnaryOp → ConstType
  | .not => .bool
  | .neg => .int

inductive Yields : UnaryOp → Const → Const → Prop where
  | not (b : Bool) : Yields .not (.bool b) (.bool !b)
  | neg (i : Int64) : Yields .neg (.int i) (.int (.ofInt (-i.toInt)))

theorem fold?_eq_some_iff {op : UnaryOp} {a c : Const} :
    op.fold? a = some c ↔ op.Yields a c := by
  constructor
  · intro h
    cases op <;> cases a <;> cases h
    · exact .not _
    · rename_i i
      have hneg := Yields.neg i
      rwa [Int64.ofInt_neg, Int64.ofInt_toInt] at hneg
  · rintro (b | i)
    · rfl
    · rw [Int64.ofInt_neg, Int64.ofInt_toInt]
      rfl

theorem isSome_fold?_iff {op : UnaryOp} {a : Const} :
    (op.fold? a).isSome = true ↔ a.type = op.type := by
  cases op <;> cases a <;> simp [fold?, Const.type, type]

theorem Yields.type_eq {op : UnaryOp} {a c : Const} (h : op.Yields a c) : c.type = op.type := by
  cases h <;> rfl

end UnaryOp

namespace BinaryOp

def accepts : BinaryOp → ConstType → ConstType → Bool
  | .and, .bool, .bool | .or, .bool, .bool => true
  | .eq, .bool, .bool | .eq, .int, .int | .lt, .int, .int => true
  | .add, .int, .int | .sub, .int, .int | .mul, .int, .int | .div, .int, .int => true
  | _, _, _ => false

def result : BinaryOp → ConstType
  | .and | .or | .eq | .lt => .bool
  | .add | .sub | .mul | .div => .int

/-- What the operator makes of its operands. Quotients truncate toward zero; the only one that
does not fit into a word is that of the least integer by -1, which is the least integer again. -/
inductive Yields : BinaryOp → Const → Const → Const → Prop where
  | and (a b : Bool) : Yields .and (.bool a) (.bool b) (.bool (a && b))
  | or (a b : Bool) : Yields .or (.bool a) (.bool b) (.bool (a || b))
  | eqBool (a b : Bool) : Yields .eq (.bool a) (.bool b) (.bool (decide (a = b)))
  | eqInt (a b : Int64) : Yields .eq (.int a) (.int b) (.bool (decide (a.toInt = b.toInt)))
  | lt (a b : Int64) : Yields .lt (.int a) (.int b) (.bool (decide (a.toInt < b.toInt)))
  | add (a b : Int64) : Yields .add (.int a) (.int b) (.int (.ofInt (a.toInt + b.toInt)))
  | sub (a b : Int64) : Yields .sub (.int a) (.int b) (.int (.ofInt (a.toInt - b.toInt)))
  | mul (a b : Int64) : Yields .mul (.int a) (.int b) (.int (.ofInt (a.toInt * b.toInt)))
  | div {a b c : Int64} (hb : b ≠ 0) (hc : c.toInt = a.toInt.tdiv b.toInt) :
    Yields .div (.int a) (.int b) (.int c)
  | divLeast : Yields .div (.int Int64.minValue) (.int (-1)) (.int Int64.minValue)

theorem yields_div {a b : Int64} (hb : b ≠ 0) : Yields .div (.int a) (.int b) (.int (a / b)) := by
  by_cases ha : a = Int64.minValue
  · by_cases hb' : b = -1
    · subst ha hb'
      exact .divLeast
    · exact .div hb (Int64.toInt_div_of_ne_right a b hb')
  · exact .div hb (Int64.toInt_div_of_ne_left a b ha)

theorem Yields.eq_div {a b c : Int64} (h : Yields .div (.int a) (.int b) (.int c)) :
    b ≠ 0 ∧ c = a / b := by
  cases h with
  | div hb hc =>
    refine ⟨hb, ?_⟩
    rw [← Int64.toInt_inj, Int64.toInt_div, ← hc, bmod_toInt]
  | divLeast => exact ⟨by decide, by decide⟩

theorem fold?_eq_some_iff {op : BinaryOp} {a b c : Const} :
    op.fold? a b = some c ↔ op.Yields a b c := by
  constructor
  · fun_cases fold? op a b with
    | case1 a b =>
      rintro ⟨⟩
      exact .and a b
    | case2 a b =>
      rintro ⟨⟩
      exact .or a b
    | case3 a b =>
      rintro ⟨⟩
      rw [beq_eq_decide]
      exact .eqBool a b
    | case4 a b =>
      rintro ⟨⟩
      rw [beq_eq_decide, ← decide_eq_decide.2 Int64.toInt_inj]
      exact .eqInt a b
    | case5 a b =>
      rintro ⟨⟩
      rw [decide_eq_decide.2 Int64.lt_iff_toInt_lt]
      exact .lt a b
    | case6 a b =>
      rintro ⟨⟩
      have hadd := Yields.add a b
      rwa [Int64.ofInt_add, Int64.ofInt_toInt, Int64.ofInt_toInt] at hadd
    | case7 a b =>
      rintro ⟨⟩
      have hsub := Yields.sub a b
      rwa [Int64.ofInt_sub, Int64.ofInt_toInt, Int64.ofInt_toInt] at hsub
    | case8 a b =>
      rintro ⟨⟩
      have hmul := Yields.mul a b
      rwa [Int64.ofInt_mul, Int64.ofInt_toInt, Int64.ofInt_toInt] at hmul
    | case9 => exact nofun
    | case10 a b hb =>
      rintro ⟨⟩
      exact yields_div hb
    | case11 => exact nofun
  · intro h
    cases h with
    | and a b => rfl
    | or a b => rfl
    | eqBool a b => rw [fold?, beq_eq_decide]
    | eqInt a b => rw [fold?, beq_eq_decide, decide_eq_decide.2 Int64.toInt_inj]
    | lt a b => simp [fold?, Int64.lt_iff_toInt_lt]
    | add a b => simp [fold?, Int64.ofInt_add]
    | sub a b => simp [fold?, Int64.ofInt_sub]
    | mul a b => simp [fold?, Int64.ofInt_mul]
    | div hb hc =>
      obtain ⟨-, heq⟩ := (Yields.div hb hc).eq_div
      simp [fold?, hb, heq]
    | divLeast => rfl

theorem isSome_fold?_iff {op : BinaryOp} {a b : Const} : (op.fold? a b).isSome = true ↔
    op.accepts a.type b.type = true ∧ (op = .div → b ≠ .int 0) := by
  cases op <;> cases a <;> cases b <;> simp [fold?, Const.type, accepts]

theorem Yields.type_eq {op : BinaryOp} {a b c : Const} (h : op.Yields a b c) :
    c.type = op.result := by
  cases h <;> rfl

end BinaryOp

namespace NodeKind

def isFoldable : NodeKind → Bool
  | .bool _ | .int _ | .name _ | .constDecl _ | .unary _ | .binary _ => true
  | _ => false

def isArithmetic : NodeKind → Bool
  | .int _ | .name _ | .constDecl _ | .unary .neg => true
  | .binary .add | .binary .sub | .binary .mul => true
  | _ => false

end NodeKind

/-! ## Values of nodes -/

namespace Tree

variable (t : Tree)

/-- A name stands for the declaration that it is bound to, a declaration for its initializer. -/
inductive StandsFor : NodeId → NodeId → Prop where
  | name {id d : NodeId} {name : String} (h : t.Has id (.name name) [])
    (hd : t.binding? id = some d) : StandsFor id d
  | declaration {id x : NodeId} {name : String} (h : t.Has id (.constDecl name) [x]) :
    StandsFor id x

/-- The value of an arithmetic expression in exact integers. -/
inductive Exact : NodeId → Int → Prop where
  | int {id : NodeId} {i : Int64} (h : t.Has id (.int i) []) : Exact id i.toInt
  | standing {id x : NodeId} {z : Int} (h : t.StandsFor id x) (hx : Exact x z) : Exact id z
  | neg {id x : NodeId} {z : Int} (h : t.Has id (.unary .neg) [x]) (hx : Exact x z) : Exact id (-z)
  | add {id x y : NodeId} {z w : Int} (h : t.Has id (.binary .add) [x, y]) (hx : Exact x z)
    (hy : Exact y w) : Exact id (z + w)
  | sub {id x y : NodeId} {z w : Int} (h : t.Has id (.binary .sub) [x, y]) (hx : Exact x z)
    (hy : Exact y w) : Exact id (z - w)
  | mul {id x y : NodeId} {z w : Int} (h : t.Has id (.binary .mul) [x, y]) (hx : Exact x z)
    (hy : Exact y w) : Exact id (z * w)

/-- The value of an expression, computed operator by operator. -/
inductive Evaluates : NodeId → Const → Prop where
  | bool {id : NodeId} {b : Bool} (h : t.Has id (.bool b) []) : Evaluates id (.bool b)
  | int {id : NodeId} {i : Int64} (h : t.Has id (.int i) []) : Evaluates id (.int i)
  | standing {id x : NodeId} {c : Const} (h : t.StandsFor id x) (hx : Evaluates x c) :
    Evaluates id c
  | unary {id x : NodeId} {op : UnaryOp} {a c : Const} (h : t.Has id (.unary op) [x])
    (hx : Evaluates x a) (hc : op.Yields a c) : Evaluates id c
  | binary {id x y : NodeId} {op : BinaryOp} {a b c : Const} (h : t.Has id (.binary op) [x, y])
    (hx : Evaluates x a) (hy : Evaluates y b) (hc : op.Yields a b c) : Evaluates id c

/-- The type of an expression, which its outermost operator shows. -/
inductive Typed : NodeId → ConstType → Prop where
  | bool {id : NodeId} {b : Bool} (h : t.Has id (.bool b) []) : Typed id .bool
  | int {id : NodeId} {i : Int64} (h : t.Has id (.int i) []) : Typed id .int
  | standing {id x : NodeId} {τ : ConstType} (h : t.StandsFor id x) (hx : Typed x τ) : Typed id τ
  | unary {id x : NodeId} {op : UnaryOp} (h : t.Has id (.unary op) [x]) : Typed id op.type
  | binary {id x y : NodeId} {op : BinaryOp} (h : t.Has id (.binary op) [x, y]) : Typed id op.result

/-- If the node is an operator, its operands have its types, and the divisor is not zero. -/
structure Applied (zero : NodeId → Prop) (id : NodeId) : Prop where
  unary : ∀ op x, t.Has id (.unary op) [x] → t.Typed x op.type
  binary : ∀ op x y, t.Has id (.binary op) [x, y] →
    ∃ σ τ, t.Typed x σ ∧ t.Typed y τ ∧ op.accepts σ τ = true
  divisor : ∀ x y, t.Has id (.binary .div) [x, y] → ¬zero y

/-- The constant of the node is made of literals, operators, and names that are bound, and
not of itself. -/
structure Grounded (id : NodeId) : Prop where
  acyclic : ¬t.ReachesCycle id
  foldable : ∀ m, ReflTransGen t.Depends id m → ∃ kind, t.kind? m = some kind ∧
    kind.isFoldable = true
  bound : ∀ m name, ReflTransGen t.Depends id m → t.kind? m = some (.name name) →
    ∃ d, t.binding? m = some d

variable {t} {id x y : NodeId}

theorem Has.unique {kind kind' : NodeKind} {children children' : List NodeId}
    (h : t.Has id kind children) (h' : t.Has id kind' children') :
    kind = kind' ∧ children = children' := by
  obtain ⟨n, hn, rfl, rfl⟩ := h
  obtain ⟨n', hn', rfl, rfl⟩ := h'
  cases hn.symm.trans hn'
  exact ⟨rfl, rfl⟩

theorem StandsFor.unique {x' : NodeId} (h : t.StandsFor id x) (h' : t.StandsFor id x') :
    x = x' := by
  cases h with
  | name h hd =>
    cases h' with
    | name _ hd' => exact Option.some.inj (hd.symm.trans hd')
    | declaration h' => cases (h.unique h').1
  | declaration h =>
    cases h' with
    | name h' _ => cases (h.unique h').1
    | declaration h' =>
      cases (h.unique h').2
      rfl

theorem StandsFor.has (h : t.StandsFor id x) : ∃ name, t.Has id (.name name) [] ∨
    ∃ x, t.Has id (.constDecl name) [x] := by
  cases h with
  | name h _ => exact ⟨_, .inl h⟩
  | declaration h => exact ⟨_, .inr ⟨_, h⟩⟩

theorem Typed.unique {σ τ : ConstType} (h : t.Typed id σ) (h' : t.Typed id τ) : σ = τ := by
  induction h with
  | standing h _ ih =>
    cases h' with
    | standing h' hx => exact ih (h.unique h' ▸ hx)
    | _ => grind [Has.unique, StandsFor.has]
  | _ => cases h' <;> grind [Has.unique, StandsFor.has]

theorem Exact.unique {z w : Int} (h : t.Exact id z) (h' : t.Exact id w) : z = w := by
  induction h generalizing w with
  | standing h _ ih =>
    cases h' with
    | standing h' hx => exact ih (h.unique h' ▸ hx)
    | _ => grind [Has.unique, StandsFor.has]
  | _ => cases h' <;> grind [Has.unique, StandsFor.has]

/-! ## Operands and constants -/

theorem StandsFor.operands_eq (h : t.StandsFor id x) : t.operands id = [x] := by
  cases h with
  | name h hd =>
    obtain ⟨n, hn, hk, -⟩ := h
    simp [operands, hn, hk, hd]
  | declaration h =>
    obtain ⟨n, hn, hk, hc⟩ := h
    simp [operands, hn, hk, hc]

theorem operands_unary {op : UnaryOp} (h : t.Has id (.unary op) [x]) : t.operands id = [x] := by
  obtain ⟨n, hn, hk, hc⟩ := h
  simp [operands, hn, hk, hc]

theorem operands_binary {op : BinaryOp} (h : t.Has id (.binary op) [x, y]) :
    t.operands id = [x, y] := by
  obtain ⟨n, hn, hk, hc⟩ := h
  simp [operands, hn, hk, hc]

theorem StandsFor.depends (h : t.StandsFor id x) : t.Depends id x := by
  rw [Depends, h.operands_eq]
  exact List.mem_cons_self

theorem depends_operand {op : UnaryOp} (h : t.Has id (.unary op) [x]) : t.Depends id x := by
  rw [Depends, operands_unary h]
  exact List.mem_cons_self

theorem depends_left {op : BinaryOp} (h : t.Has id (.binary op) [x, y]) : t.Depends id x := by
  rw [Depends, operands_binary h]
  exact List.mem_cons_self

theorem depends_right {op : BinaryOp} (h : t.Has id (.binary op) [x, y]) : t.Depends id y := by
  rw [Depends, operands_binary h]
  exact List.mem_cons_of_mem _ List.mem_cons_self

theorem constantOf_bool {b : Bool} (h : t.Has id (.bool b) []) :
    t.constantOf id = some (.bool b) := by
  obtain ⟨n, hn, hk, -⟩ := h
  simp [constantOf_eq id, foldNode, hn, hk]

theorem constantOf_int {i : Int64} (h : t.Has id (.int i) []) :
    t.constantOf id = some (.int i) := by
  obtain ⟨n, hn, hk, -⟩ := h
  simp [constantOf_eq id, foldNode, hn, hk]

theorem StandsFor.constantOf_eq (h : t.StandsFor id x) : t.constantOf id = t.constantOf x := by
  have hx := h.operands_eq
  rw [Tree.constantOf_eq]
  cases h with
  | name h _ =>
    obtain ⟨n, hn, hk, -⟩ := h
    simp [foldNode, hn, hk, hx]
  | declaration h =>
    obtain ⟨n, hn, hk, -⟩ := h
    simp [foldNode, hn, hk, hx]

theorem constantOf_unary {op : UnaryOp} (h : t.Has id (.unary op) [x]) :
    t.constantOf id = (t.constantOf x).bind op.fold? := by
  have hx := operands_unary h
  obtain ⟨n, hn, hk, -⟩ := h
  simp [constantOf_eq id, foldNode, hn, hk, hx]

theorem constantOf_binary {op : BinaryOp} (h : t.Has id (.binary op) [x, y]) :
    t.constantOf id = (t.constantOf x).bind fun a => (t.constantOf y).bind fun b => op.fold? a b := by
  have hx := operands_binary h
  obtain ⟨n, hn, hk, -⟩ := h
  simp [constantOf_eq id, foldNode, hn, hk, hx]

/-! ## What is evaluated is the constant -/

theorem Evaluates.constantOf_eq {c : Const} (h : t.Evaluates id c) :
    t.constantOf id = some c := by
  induction h with
  | bool h => exact constantOf_bool h
  | int h => exact constantOf_int h
  | standing h _ ih => exact h.constantOf_eq.trans ih
  | unary h _ hc ih =>
    rw [constantOf_unary h, ih]
    exact UnaryOp.fold?_eq_some_iff.2 hc
  | binary h _ _ hc ihx ihy =>
    rw [constantOf_binary h, ihx, ihy]
    exact BinaryOp.fold?_eq_some_iff.2 hc

theorem Evaluates.typed {c : Const} (h : t.Evaluates id c) : t.Typed id c.type := by
  induction h with
  | bool h => exact .bool h
  | int h => exact .int h
  | standing h _ ih => exact .standing h ih
  | unary h _ hc _ =>
    rw [hc.type_eq]
    exact .unary h
  | binary h _ _ hc _ _ =>
    rw [hc.type_eq]
    exact .binary h

/-- **One wrap at the end.** -/
theorem Exact.constantOf_eq {z : Int} (h : t.Exact id z) :
    t.constantOf id = some (.int (.ofInt z)) := by
  induction h with
  | int h => rw [constantOf_int h, Int64.ofInt_toInt]
  | standing h _ ih => exact h.constantOf_eq.trans ih
  | neg h _ ih =>
    rw [constantOf_unary h, ih, Int64.ofInt_neg]
    rfl
  | add h _ _ ihx ihy =>
    rw [constantOf_binary h, ihx, ihy, Int64.ofInt_add]
    rfl
  | sub h _ _ ihx ihy =>
    rw [constantOf_binary h, ihx, ihy, Int64.ofInt_sub]
    rfl
  | mul h _ _ ihx ihy =>
    rw [constantOf_binary h, ihx, ihy, Int64.ofInt_mul]
    rfl

/-! ## Nodes that constants are made of -/

namespace Grounded

theorem of_depends (h : t.Grounded id) {dep : NodeId} (hd : t.Depends id dep) : t.Grounded dep where
  acyclic hdep := h.acyclic (.of_depends hd hdep)
  foldable m hm := h.foldable m (.head hd hm)
  bound m name hm := h.bound m name (.head hd hm)

theorem of_reaches (h : t.Grounded id) {m : NodeId} (hm : ReflTransGen t.Depends id m) :
    t.Grounded m := by
  induction hm with
  | refl => exact h
  | tail _ hd ih => exact ih.of_depends hd

/-- What holds of a node if it holds of its operands holds of all nodes. -/
theorem induct {motive : (id : NodeId) → t.Grounded id → Prop}
    (step : ∀ id (h : t.Grounded id),
      (∀ dep (hd : t.Depends id dep), motive dep (h.of_depends hd)) → motive id h)
    {id : NodeId} (h : t.Grounded id) : motive id h := by
  have hfolds := folds_constantOf h.acyclic
  generalize t.constantOf id = value at hfolds
  induction hfolds with
  | node id κ _ ih => exact step id h fun dep hd => ih dep hd (h.of_depends hd)

theorem of_operands {kind : NodeKind} (hkind : t.kind? id = some kind)
    (hfold : kind.isFoldable = true)
    (hbound : ∀ name, kind = .name name → ∃ d, t.binding? id = some d)
    (hdeps : ∀ dep, t.Depends id dep → t.Grounded dep) : t.Grounded id where
  acyclic hcycle := by
    obtain ⟨dep, hd, hcycle⟩ := hcycle.exists_depends
    exact (hdeps dep hd).acyclic hcycle
  foldable m hm := by
    rcases hm.cases_head with rfl | ⟨dep, hd, hm⟩
    · exact ⟨kind, hkind, hfold⟩
    · exact (hdeps dep hd).foldable m hm
  bound m name hm hname := by
    rcases hm.cases_head with rfl | ⟨dep, hd, hm⟩
    · exact hbound name (Option.some.inj (hkind.symm.trans hname))
    · exact (hdeps dep hd).bound m name hm hname

end Grounded

/-- The list names each node after all its operands, and nothing else than what constants are
made of. -/
def settles (t : Tree) : List NodeId → Bool
  | [] => true
  | id :: rest =>
    (match t.kind? id with
      | some (.name _) => (t.binding? id).isSome
      | some kind => kind.isFoldable
      | none => false) &&
    (t.operands id).all (· ∈ rest) && settles t rest

theorem grounded_of_settles {l : List NodeId} (h : t.settles l = true) (hid : id ∈ l) :
    t.Grounded id := by
  induction l generalizing id with
  | nil => cases hid
  | cons first rest ih =>
    rw [settles, Bool.and_eq_true, Bool.and_eq_true] at h
    obtain ⟨⟨hfirst, hoperands⟩, hrest⟩ := h
    rcases List.mem_cons.1 hid with rfl | hid
    · have hdeps : ∀ dep, t.Depends id dep → t.Grounded dep := fun dep hd =>
        ih hrest (of_decide_eq_true (List.all_eq_true.1 hoperands dep hd))
      split at hfirst
      · next hkind =>
        exact .of_operands hkind rfl (fun _ _ => Option.isSome_iff_exists.1 hfirst) hdeps
      · next kind hname hkind =>
        exact .of_operands hkind hfirst (fun name heq => absurd heq (hname name)) hdeps
      · cases hfirst
    · exact ih hrest hid

inductive Form (t : Tree) (id : NodeId) : Prop where
  | bool {b : Bool} (h : t.Has id (.bool b) [])
  | int {i : Int64} (h : t.Has id (.int i) [])
  | standing {x : NodeId} (h : t.StandsFor id x)
  | unary {op : UnaryOp} {x : NodeId} (h : t.Has id (.unary op) [x])
  | binary {op : BinaryOp} {x y : NodeId} (h : t.Has id (.binary op) [x, y])

end Tree

namespace Stmt

variable {program : Stmt} {id : NodeId}

theorem form_of_grounded (h : (Tree.ofProgram program).Grounded id) :
    (Tree.ofProgram program).Form id := by
  obtain ⟨kind, hkind, hfold⟩ := h.foldable id .refl
  obtain ⟨x, hx, rfl, rfl⟩ := exists_site_of_kind? {} hkind
  have hfits := Outline.fits_of_mem _ (program.shaped_outline 0) hx
  have hhas : ∀ children, ((program.outline 0).1.kids {} x).map (fun z => z.1.id) = children →
      (Tree.ofProgram program).Has x.1.id x.2.kind children := fun children hc =>
    (has_iff hx).2 ⟨rfl, hc⟩
  have hkids : x.2.children = [] → ((program.outline 0).1.kids {} x).map (fun z => z.1.id) = [] := by
    intro hnil
    rw [← Outline.map_snd_kids (o := (program.outline 0).1) (r := {})] at hnil
    rw [List.map_eq_nil_iff.1 hnil]
    rfl
  cases hk : x.2.kind with
  | bool b =>
    rw [hk] at hfits hhas
    exact .bool (hhas [] (hkids hfits))
  | int i =>
    rw [hk] at hfits hhas
    exact .int (hhas [] (hkids hfits))
  | name name =>
    rw [hk] at hfits hhas hkind
    obtain ⟨d, hd⟩ := h.bound _ name .refl hkind
    exact .standing (.name (hhas [] (hkids hfits)) hd)
  | constDecl name =>
    rw [hk] at hfits hhas
    obtain ⟨u, hu⟩ := hfits
    obtain ⟨y, hy⟩ := Outline.kids_eq_singleton (o := (program.outline 0).1) (r := {}) hu
    exact .standing (.declaration (hhas [y.1.id] (by rw [hy]; rfl)))
  | unary op =>
    rw [hk] at hfits hhas
    obtain ⟨u, hu, -⟩ := hfits
    obtain ⟨y, hy⟩ := Outline.kids_eq_singleton (o := (program.outline 0).1) (r := {}) hu
    exact .unary (hhas [y.1.id] (by rw [hy]; rfl))
  | binary op =>
    rw [hk] at hfits hhas
    obtain ⟨u, v, hu, -⟩ := hfits
    obtain ⟨y, z, hy⟩ := Outline.kids_eq_pair (o := (program.outline 0).1) (r := {}) hu
    exact .binary (hhas [y.1.id, z.1.id] (by rw [hy]; rfl))
  | _ =>
    rw [hk] at hfold
    cases hfold

theorem evaluates_of_constantOf (h : (Tree.ofProgram program).Grounded id) {c : Const}
    (hc : (Tree.ofProgram program).constantOf id = some c) :
    (Tree.ofProgram program).Evaluates id c := by
  induction h using Tree.Grounded.induct generalizing c with
  | step id h ih =>
    cases form_of_grounded h with
    | bool hn =>
      rw [Tree.constantOf_bool hn] at hc
      cases hc
      exact .bool hn
    | int hn =>
      rw [Tree.constantOf_int hn] at hc
      cases hc
      exact .int hn
    | standing hn =>
      rw [hn.constantOf_eq] at hc
      exact .standing hn (ih _ hn.depends hc)
    | unary hn =>
      rw [Tree.constantOf_unary hn] at hc
      obtain ⟨a, ha, hfold⟩ := Option.bind_eq_some_iff.1 hc
      exact .unary hn (ih _ (Tree.depends_operand hn) ha) (UnaryOp.fold?_eq_some_iff.1 hfold)
    | binary hn =>
      rw [Tree.constantOf_binary hn] at hc
      obtain ⟨a, ha, hc⟩ := Option.bind_eq_some_iff.1 hc
      obtain ⟨b, hb, hfold⟩ := Option.bind_eq_some_iff.1 hc
      exact .binary hn (ih _ (Tree.depends_left hn) ha) (ih _ (Tree.depends_right hn) hb)
        (BinaryOp.fold?_eq_some_iff.1 hfold)

/-! ## When there is a value -/

def zero (program : Stmt) (id : NodeId) : Prop :=
  (Tree.ofProgram program).constantOf id = some (.int 0)

theorem applied_of_isSome (h : (Tree.ofProgram program).Grounded id)
    (hsome : ((Tree.ofProgram program).constantOf id).isSome = true) :
    (Tree.ofProgram program).Applied program.zero id := by
  obtain ⟨c, hc⟩ := Option.isSome_iff_exists.1 hsome
  have hbinary : ∀ op x y, (Tree.ofProgram program).Has id (.binary op) [x, y] → ∃ a b,
      (Tree.ofProgram program).Evaluates x a ∧ (Tree.ofProgram program).Evaluates y b ∧
      (op.fold? a b).isSome = true := by
    intro op x y hn
    rw [Tree.constantOf_binary hn] at hc
    obtain ⟨a, ha, hc⟩ := Option.bind_eq_some_iff.1 hc
    obtain ⟨b, hb, hfold⟩ := Option.bind_eq_some_iff.1 hc
    exact ⟨a, b, evaluates_of_constantOf (h.of_depends (Tree.depends_left hn)) ha,
      evaluates_of_constantOf (h.of_depends (Tree.depends_right hn)) hb, by rw [hfold]; rfl⟩
  constructor
  · intro op x hn
    rw [Tree.constantOf_unary hn] at hc
    obtain ⟨a, ha, hfold⟩ := Option.bind_eq_some_iff.1 hc
    rw [← UnaryOp.isSome_fold?_iff.1 (Option.isSome_iff_exists.2 ⟨c, hfold⟩)]
    exact (evaluates_of_constantOf (h.of_depends (Tree.depends_operand hn)) ha).typed
  · intro op x y hn
    obtain ⟨a, b, ha, hb, hfold⟩ := hbinary op x y hn
    exact ⟨a.type, b.type, ha.typed, hb.typed, (BinaryOp.isSome_fold?_iff.1 hfold).1⟩
  · intro x y hn hzero
    obtain ⟨a, b, -, hb, hfold⟩ := hbinary .div x y hn
    rw [zero, hb.constantOf_eq] at hzero
    exact (BinaryOp.isSome_fold?_iff.1 hfold).2 rfl (Option.some.inj hzero)

theorem isSome_of_applied (h : (Tree.ofProgram program).Grounded id)
    (happlied : (Tree.ofProgram program).Applied program.zero id)
    (hdeps : ∀ dep, (Tree.ofProgram program).Depends id dep →
      ((Tree.ofProgram program).constantOf dep).isSome = true) :
    ((Tree.ofProgram program).constantOf id).isSome = true := by
  -- The type of an operand is that of its value.
  have hvalue : ∀ dep, (Tree.ofProgram program).Depends id dep → ∃ a,
      (Tree.ofProgram program).constantOf dep = some a ∧
      ∀ τ, (Tree.ofProgram program).Typed dep τ → a.type = τ := by
    intro dep hd
    obtain ⟨a, ha⟩ := Option.isSome_iff_exists.1 (hdeps dep hd)
    exact ⟨a, ha, fun τ hτ => (evaluates_of_constantOf (h.of_depends hd) ha).typed.unique hτ⟩
  cases form_of_grounded h with
  | bool hn => rw [Tree.constantOf_bool hn]; rfl
  | int hn => rw [Tree.constantOf_int hn]; rfl
  | standing hn =>
    rw [hn.constantOf_eq]
    exact hdeps _ hn.depends
  | @unary op x hn =>
    obtain ⟨a, ha, hτ⟩ := hvalue x (Tree.depends_operand hn)
    rw [Tree.constantOf_unary hn, ha]
    exact UnaryOp.isSome_fold?_iff.2 (hτ _ (happlied.unary op x hn))
  | @binary op x y hn =>
    obtain ⟨a, ha, hσ⟩ := hvalue x (Tree.depends_left hn)
    obtain ⟨b, hb, hτ⟩ := hvalue y (Tree.depends_right hn)
    obtain ⟨σ, τ, hx, hy, haccepts⟩ := happlied.binary op x y hn
    rw [Tree.constantOf_binary hn, ha, hb]
    refine BinaryOp.isSome_fold?_iff.2 ⟨by rwa [hσ σ hx, hτ τ hy], ?_⟩
    rintro rfl rfl
    exact happlied.divisor x y hn hb

theorem isSome_constantOf_iff (h : (Tree.ofProgram program).Grounded id) :
    ((Tree.ofProgram program).constantOf id).isSome = true ↔
      ∀ m, ReflTransGen (Tree.ofProgram program).Depends id m →
        (Tree.ofProgram program).Applied program.zero m := by
  induction h using Tree.Grounded.induct with
  | step id h ih =>
    constructor
    · intro hsome m hm
      rcases hm.cases_head with rfl | ⟨dep, hd, hm⟩
      · exact applied_of_isSome h hsome
      · refine (ih dep hd).1 ?_ m hm
        by_contra hnone
        rw [Tree.constantOf_eq, Tree.foldNode_eq_none hd (Option.not_isSome_iff_eq_none.1 hnone)]
          at hsome
        cases hsome
    · intro hall
      exact isSome_of_applied h (hall id .refl) fun dep hd =>
        (ih dep hd).2 fun m hm => hall m (.head hd hm)

theorem exists_exact (h : (Tree.ofProgram program).Grounded id)
    (harith : ∀ m, ReflTransGen (Tree.ofProgram program).Depends id m → ∃ kind,
      (Tree.ofProgram program).kind? m = some kind ∧ kind.isArithmetic = true) :
    ∃ z, (Tree.ofProgram program).Exact id z := by
  induction h using Tree.Grounded.induct with
  | step id h ih =>
    have hdep : ∀ dep, (Tree.ofProgram program).Depends id dep →
        ∃ z, (Tree.ofProgram program).Exact dep z :=
      fun dep hd => ih dep hd fun m hm => harith m (.head hd hm)
    have hkind : ∀ kind children, (Tree.ofProgram program).Has id kind children →
        kind.isArithmetic = true := by
      rintro kind children ⟨n, hn, rfl, -⟩
      obtain ⟨kind, hk, hkind⟩ := harith id .refl
      rw [Tree.kind?, hn] at hk
      cases hk
      exact hkind
    cases form_of_grounded h with
    | bool hn => cases hkind _ _ hn
    | int hn => exact ⟨_, .int hn⟩
    | standing hn =>
      obtain ⟨z, hz⟩ := hdep _ hn.depends
      exact ⟨z, .standing hn hz⟩
    | @unary op x hn =>
      obtain ⟨z, hz⟩ := hdep x (Tree.depends_operand hn)
      cases op with
      | not => cases hkind _ _ hn
      | neg => exact ⟨-z, .neg hn hz⟩
    | @binary op x y hn =>
      obtain ⟨z, hz⟩ := hdep x (Tree.depends_left hn)
      obtain ⟨w, hw⟩ := hdep y (Tree.depends_right hn)
      cases op with
      | add => exact ⟨z + w, .add hn hz hw⟩
      | sub => exact ⟨z - w, .sub hn hz hw⟩
      | mul => exact ⟨z * w, .mul hn hz hw⟩
      | _ => cases hkind _ _ hn

theorem lt_size_of_grounded (h : (Tree.ofProgram program).Grounded id) :
    id < (Tree.ofProgram program).size := by
  obtain ⟨kind, hkind, -⟩ := h.foldable id .refl
  obtain ⟨x, hx, rfl, -⟩ := exists_site_of_kind? {} hkind
  exact Tree.id_lt_size hx

theorem finds_constant_iff (rules : RuleProvider) (h : (Tree.ofProgram program).Grounded id)
    {value : Option Const} : program.Finds rules .constant id value ↔
      (Tree.ofProgram program).constantOf id = value := by
  rw [finds_iff (lt_size_of_grounded h), Outline.reference_constant]
  rfl

theorem applied_zero_iff (rules : RuleProvider) (h : (Tree.ofProgram program).Grounded id) :
    (Tree.ofProgram program).Applied (program.Finds rules .constant · (some (.int 0))) id ↔
      (Tree.ofProgram program).Applied program.zero id := by
  have hdivisor : ∀ x y, (Tree.ofProgram program).Has id (.binary .div) [x, y] →
      (program.Finds rules .constant y (some (.int 0)) ↔ program.zero y) :=
    fun x y hn => finds_constant_iff rules (h.of_depends (Tree.depends_right hn))
  constructor
  · intro ha
    exact ⟨ha.unary, ha.binary, fun x y hn hz => ha.divisor x y hn ((hdivisor x y hn).2 hz)⟩
  · intro ha
    exact ⟨ha.unary, ha.binary, fun x y hn hz => ha.divisor x y hn ((hdivisor x y hn).1 hz)⟩

/-- **Constants wrap consistently.** The analysis finds a value for each expression of
literals, operators and bound names. If there are only sums, differences, products and
negations of integers, it is the one word that is congruent to the exact value. It is missing
exactly if somewhere an operand has the wrong type or a divisor is zero, and otherwise it is
that of applying operator after operator. -/
theorem constant_wraps (program : Stmt) (rules : RuleProvider) {id : NodeId}
    (h : (Tree.ofProgram program).Grounded id) :
    ∃ value, program.Finds rules .constant id value ∧
      ((∀ m, ReflTransGen (Tree.ofProgram program).Depends id m → ∃ kind,
          (Tree.ofProgram program).kind? m = some kind ∧ kind.isArithmetic = true) →
        ∃ z v, (∀ z', (Tree.ofProgram program).Exact id z' ↔ z' = z) ∧ value = some (.int v) ∧
          ∀ v' : Int64, v'.toInt ≡ z [ZMOD 2 ^ 64] ↔ v' = v) ∧
      (value.isSome = true ↔ ∀ m, ReflTransGen (Tree.ofProgram program).Depends id m →
        (Tree.ofProgram program).Applied (program.Finds rules .constant · (some (.int 0))) m) ∧
      ∀ c, value = some c ↔ (Tree.ofProgram program).Evaluates id c := by
  refine ⟨_, (finds_constant_iff rules h).2 rfl, ?_, ?_, ?_⟩
  · intro harith
    obtain ⟨z, hz⟩ := exists_exact h harith
    refine ⟨z, .ofInt z, fun z' => ⟨fun hz' => hz'.unique hz, ?_⟩, hz.constantOf_eq,
      fun v' => modEq_iff_eq_ofInt⟩
    rintro rfl
    exact hz
  · rw [isSome_constantOf_iff h]
    exact forall₂_congr fun m hm => (applied_zero_iff rules (h.of_reaches hm)).symm
  · exact fun c => ⟨evaluates_of_constantOf h, Tree.Evaluates.constantOf_eq⟩

def overflowing : Stmt :=
  .block [
    .const "least" (.binary .sub (.unary .neg (.int Int64.maxValue)) (.int 1)),
    .const "square" (.binary .mul (.name "least") (.name "least")),
    .expr (.binary .div (.name "least") (.unary .neg (.int 1))),
    .expr (.binary .div (.int 7) (.name "square"))]

/-- The square wraps to zero, so that there is no quotient by it. -/
theorem constant_wraps_overflowing :
    (Tree.ofProgram overflowing).Exact 18 (2 ^ 126) ∧
    overflowing.Finds ({} : Rules) .constant 18 (some (.int 0)) ∧
    overflowing.Finds ({} : Rules) .constant 11 (some (.int Int64.minValue)) ∧
    overflowing.Finds ({} : Rules) .constant 16 none := by
  have hgrounded : ∀ id ∈ [16, 17, 18, 6, 7, 8, 9, 11, 12, 1, 2, 3, 4, 5, 13, 14],
      (Tree.ofProgram overflowing).Grounded id := fun id hid =>
    Tree.grounded_of_settles (by decide) hid
  have hhas : ∀ id n, (Tree.ofProgram overflowing).node? id = some n →
      (Tree.ofProgram overflowing).Has id n.kind n.children := fun _ n hn => ⟨n, hn, rfl, rfl⟩
  have hleast : (Tree.ofProgram overflowing).Exact 1 (-Int64.maxValue.toInt - (1 : Int64).toInt) :=
    .standing (.declaration (hhas 1 _ rfl))
      (.sub (hhas 2 _ rfl) (.neg (hhas 3 _ rfl) (.int (hhas 4 _ rfl))) (.int (hhas 5 _ rfl)))
  have hexact : (Tree.ofProgram overflowing).Exact 18 (2 ^ 126) :=
    .standing (.name (hhas 18 _ rfl) rfl) (.standing (.declaration (hhas 6 _ rfl))
      (.mul (hhas 7 _ rfl) (.standing (.name (hhas 8 _ rfl) rfl) hleast)
        (.standing (.name (hhas 9 _ rfl) rfl) hleast)))
  have hzero : overflowing.Finds ({} : Rules) .constant 18 (some (.int 0)) := by
    obtain ⟨value, hfinds, harith, -⟩ := constant_wraps overflowing ({} : Rules)
      (hgrounded 18 (by decide))
    have hclosed : ∀ m ∈ [18, 6, 7, 8, 9, 1, 2, 3, 4, 5],
        ((Tree.ofProgram overflowing).kind? m).any NodeKind.isArithmetic = true ∧
        ∀ dep ∈ (Tree.ofProgram overflowing).operands m, dep ∈ [18, 6, 7, 8, 9, 1, 2, 3, 4, 5] := by
      decide
    obtain ⟨z, v, hz, rfl, hv⟩ := harith fun m hm => by
      have hmem : m ∈ [18, 6, 7, 8, 9, 1, 2, 3, 4, 5] := by
        induction hm with
        | refl => decide
        | tail _ hd ih => exact (hclosed _ ih).2 _ hd
      exact (Option.any_eq_true _ _).1 (hclosed m hmem).1
    cases (hz _).1 hexact
    rwa [← (hv 0).1 (by decide)] at hfinds
  refine ⟨hexact, hzero, ?_, ?_⟩
  · obtain ⟨value, hfinds, -, -, hevaluates⟩ := constant_wraps overflowing ({} : Rules)
      (hgrounded 11 (by decide))
    have hleast : (Tree.ofProgram overflowing).Evaluates 1 (.int Int64.minValue) :=
      .standing (.declaration (hhas 1 _ rfl)) (.binary (hhas 2 _ rfl)
        (.unary (hhas 3 _ rfl) (.int (hhas 4 _ rfl)) (.neg _)) (.int (hhas 5 _ rfl)) (.sub _ _))
    rwa [(hevaluates _).2 (.binary (hhas 11 _ rfl) (.standing (.name (hhas 12 _ rfl) rfl) hleast)
      (.unary (hhas 13 _ rfl) (.int (hhas 14 _ rfl)) (.neg _)) .divLeast)] at hfinds
  · obtain ⟨value, hfinds, -, happlied, -⟩ := constant_wraps overflowing ({} : Rules)
      (hgrounded 16 (by decide))
    cases value with
    | none => exact hfinds
    | some c => exact absurd hzero ((happlied.1 rfl 16 .refl).divisor 17 18 (hhas 16 _ rfl))

end Stmt

end Attribution
