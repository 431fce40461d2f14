import Attribution.Proofs.Reference.Site
/-!
# The shape of program outlines

Which children the nodes of each kind have. Every outline of a program has this
shape (`Stmt.shaped_outline`), so the children that equations ask for exist.
-/

namespace Attribution

namespace Outline

/-- The children that a node of the given kind has. -/
def Fits (children : List Outline) : NodeKind → Prop
  | .whileLoop | .doWhile => ∃ x y, children = [x, y]
  | .labeled _ | .constDecl _ => ∃ x, children = [x]
  | .ifThen => ∃ x y zs, children = x :: y :: zs ∧ zs.length ≤ 1
  | .switch => ∃ x cases, children = x :: cases
  | .tryCatch => ∃ body catches last, children = body :: catches ++ last ∧
    body.kind.isClause = false ∧ (∀ c ∈ catches, c.kind.isCatch = true) ∧
    (last = [] ∨ ∃ f, last = [f] ∧ f.kind = .finallyClause)
  | .breakTo _ | .continueTo _ | .bool _ | .int _ | .name _ => children = []
  | .unary _ => ∃ x, children = [x] ∧ x.kind.isExpression = true
  | .binary _ => ∃ x y, children = [x, y] ∧ x.kind.isExpression = true ∧
    y.kind.isExpression = true
  | .call _ => ∀ c ∈ children, c.kind.isExpression = true
  | _ => True

mutual

def Shaped : Outline → Prop
  | .mk kind _ children => Fits children kind ∧ ShapedAll children

def ShapedAll : List Outline → Prop
  | [] => True
  | o :: rest => o.Shaped ∧ ShapedAll rest

end

theorem shapedAll_append {xs ys : List Outline} (hx : ShapedAll xs) (hy : ShapedAll ys) :
    ShapedAll (xs ++ ys) := by
  induction xs with
  | nil => exact hy
  | cons x rest ih =>
    rw [ShapedAll] at hx
    rw [List.cons_append, ShapedAll]
    exact ⟨hx.1, ih hx.2⟩

mutual

theorem fits_of_mem {κ : NodeId → Option Const} {s : Subject} {p : Site} {x : Site × Outline} :
    ∀ o : Outline, o.Shaped → x ∈ o.sites κ s p → Fits x.2.children x.2.kind
  | .mk kind location children, hs, hx => by
    rw [Shaped] at hs
    rw [sites] at hx
    rcases List.mem_cons.1 hx with rfl | hx
    · exact hs.1
    · exact fits_of_mem_all children hs.2 hx

theorem fits_of_mem_all {κ : NodeId → Option Const} {s : Subject} {p : Site} {o : Outline}
    {x : Site × Outline} : ∀ (cs : List Outline) {index id : Nat} {before : Option (Site × Flow)},
    ShapedAll cs → x ∈ sitesAll κ s p o index id before cs → Fits x.2.children x.2.kind
  | [], _, _, _, _, hx => by
    rw [sitesAll] at hx
    cases hx
  | c :: rest, _, _, _, hs, hx => by
    rw [ShapedAll] at hs
    rw [sitesAll] at hx
    rcases List.mem_append.1 hx with hx | hx
    · exact fits_of_mem c hs.1 hx
    · exact fits_of_mem_all rest hs.2 hx

end

end Outline

namespace Expr

open Outline

theorem isExpression_outline (e : Expr) (line column : Nat) :
    (e.outline line column).1.kind.isExpression = true := by
  cases e with
  | bool | int | name | unary | binary | call =>
    rw [outline]
    rfl

theorem isExpression_outlineAll : ∀ (es : List Expr) (line column : Nat),
    ∀ c ∈ (outlineAll line column es).1, c.kind.isExpression = true
  | [], line, column, c, hc => by
    rw [outlineAll] at hc
    cases hc
  | e :: rest, line, column, c, hc => by
    rw [outlineAll] at hc
    rcases List.mem_cons.1 hc with rfl | hc
    · exact isExpression_outline e _ _
    · exact isExpression_outlineAll rest _ _ c hc

mutual

theorem shaped_outline : ∀ (e : Expr) (line column : Nat), (e.outline line column).1.Shaped
  | .bool value, line, column => by
    rw [outline, Shaped, ShapedAll]
    exact ⟨rfl, trivial⟩
  | .int value, line, column => by
    rw [outline, Shaped, ShapedAll]
    exact ⟨rfl, trivial⟩
  | .name x, line, column => by
    rw [outline, Shaped, ShapedAll]
    exact ⟨rfl, trivial⟩
  | .unary op operand, line, column => by
    rw [outline, Shaped, ShapedAll, ShapedAll]
    exact ⟨⟨_, rfl, isExpression_outline operand _ _⟩, shaped_outline operand _ _, trivial⟩
  | .binary op left right, line, column => by
    rw [outline, Shaped, ShapedAll, ShapedAll, ShapedAll]
    exact ⟨⟨_, _, rfl, isExpression_outline left _ _, isExpression_outline right _ _⟩,
      shaped_outline left _ _, shaped_outline right _ _, trivial⟩
  | .call callee args, line, column => by
    rw [outline, Shaped]
    exact ⟨isExpression_outlineAll args _ _, shaped_outlineAll args _ _⟩

theorem shaped_outlineAll : ∀ (es : List Expr) (line column : Nat),
    ShapedAll (outlineAll line column es).1
  | [], line, column => by
    rw [outlineAll, ShapedAll]
    trivial
  | e :: rest, line, column => by
    rw [outlineAll, ShapedAll]
    exact ⟨shaped_outline e _ _, shaped_outlineAll rest _ _⟩

end

theorem shaped_outlineOn (line : Nat) (e : Expr) : (e.outlineOn line).Shaped :=
  shaped_outline e line 1

end Expr

namespace Stmt

open Outline

theorem isClause_outline (s : Stmt) (line : Nat) : (s.outline line).1.kind.isClause = false := by
  cases s with
  | block | expr | const | ifThen | whileLoop | doWhile | switch | labeled | breakTo | continueTo
  | returns | throws | tryCatch =>
    rw [outline]
    rfl

theorem isCatch_of_mem : ∀ (catches : List Catch) (line : Nat),
    ∀ c ∈ (outlineCatches line catches).1, c.kind.isCatch = true
  | [], _, c, hc => by
    rw [outlineCatches] at hc
    cases hc
  | .mk type handler :: rest, _, c, hc => by
    rw [outlineCatches] at hc
    rcases List.mem_cons.1 hc with rfl | hc
    · rfl
    · exact isCatch_of_mem rest _ c hc

theorem outlineFinally_shape (line : Nat) (finalizer : Option Stmt) :
    (outlineFinally line finalizer).1 = [] ∨
      ∃ f, (outlineFinally line finalizer).1 = [f] ∧ f.kind = .finallyClause := by
  cases finalizer with
  | none => exact .inl (by rw [outlineFinally])
  | some s =>
    rw [outlineFinally]
    exact .inr ⟨_, rfl, rfl⟩

theorem length_outlineOpt (line : Nat) (no : Option Stmt) :
    (outlineOpt line no).1.length ≤ 1 := by
  cases no with
  | none =>
    rw [outlineOpt]
    exact Nat.zero_le 1
  | some s =>
    rw [outlineOpt]
    exact Nat.le_refl 1

mutual

theorem shaped_outline : ∀ (s : Stmt) (line : Nat), (s.outline line).1.Shaped
  | .block body, line => by
    rw [outline, Shaped]
    exact ⟨trivial, shaped_outlineAll body _⟩
  | .expr value, line => by
    rw [outline, Shaped, ShapedAll, ShapedAll]
    exact ⟨trivial, value.shaped_outlineOn _, trivial⟩
  | .const name init, line => by
    rw [outline, Shaped, ShapedAll, ShapedAll]
    exact ⟨⟨_, rfl⟩, init.shaped_outlineOn _, trivial⟩
  | .ifThen cond yes no, line => by
    rw [outline, Shaped, ShapedAll, ShapedAll]
    exact ⟨⟨_, _, _, rfl, length_outlineOpt _ no⟩, cond.shaped_outlineOn _, shaped_outline yes _,
      shaped_outlineOpt no _⟩
  | .whileLoop cond body, line => by
    rw [outline, Shaped, ShapedAll, ShapedAll, ShapedAll]
    exact ⟨⟨_, _, rfl⟩, cond.shaped_outlineOn _, shaped_outline body _, trivial⟩
  | .doWhile body cond, line => by
    rw [outline, Shaped, ShapedAll, ShapedAll, ShapedAll]
    exact ⟨⟨_, _, rfl⟩, shaped_outline body _, cond.shaped_outlineOn _, trivial⟩
  | .switch selector cases, line => by
    rw [outline, Shaped, ShapedAll]
    exact ⟨⟨_, _, rfl⟩, selector.shaped_outlineOn _, shaped_outlineCases cases _⟩
  | .labeled label body, line => by
    rw [outline, Shaped, ShapedAll, ShapedAll]
    exact ⟨⟨_, rfl⟩, shaped_outline body _, trivial⟩
  | .breakTo label, line => by
    rw [outline, Shaped, ShapedAll]
    exact ⟨rfl, trivial⟩
  | .continueTo label, line => by
    rw [outline, Shaped, ShapedAll]
    exact ⟨rfl, trivial⟩
  | .returns none, line => by
    rw [outline, Shaped]
    exact ⟨trivial, trivial⟩
  | .returns (some value), line => by
    rw [outline, Shaped]
    exact ⟨trivial, value.shaped_outlineOn _, trivial⟩
  | .throws type, line => by
    rw [outline, Shaped, ShapedAll]
    exact ⟨trivial, trivial⟩
  | .tryCatch body catches finalizer, line => by
    rw [outline, Shaped]
    refine ⟨⟨_, _, _, rfl, isClause_outline body _, isCatch_of_mem catches _,
      outlineFinally_shape _ finalizer⟩, ?_⟩
    rw [List.cons_append, ShapedAll]
    exact ⟨shaped_outline body _, shapedAll_append (shaped_outlineCatches catches _)
      (shaped_outlineFinally finalizer _)⟩

theorem shaped_outlineAll : ∀ (body : List Stmt) (line : Nat),
    ShapedAll (outlineAll line body).1
  | [], line => by
    rw [outlineAll, ShapedAll]
    trivial
  | s :: rest, line => by
    rw [outlineAll, ShapedAll]
    exact ⟨shaped_outline s _, shaped_outlineAll rest _⟩

theorem shaped_outlineOpt : ∀ (no : Option Stmt) (line : Nat),
    ShapedAll (outlineOpt line no).1
  | none, line => by
    rw [outlineOpt, ShapedAll]
    trivial
  | some s, line => by
    rw [outlineOpt, ShapedAll, ShapedAll]
    exact ⟨shaped_outline s _, trivial⟩

theorem shaped_outlineCases : ∀ (cases : List Case) (line : Nat),
    ShapedAll (outlineCases line cases).1
  | [], line => by
    rw [outlineCases, ShapedAll]
    trivial
  | .mk isDefault body :: rest, line => by
    rw [outlineCases, ShapedAll, Shaped]
    exact ⟨⟨trivial, shaped_outlineAll body _⟩, shaped_outlineCases rest _⟩

theorem shaped_outlineCatches : ∀ (catches : List Catch) (line : Nat),
    ShapedAll (outlineCatches line catches).1
  | [], line => by
    rw [outlineCatches, ShapedAll]
    trivial
  | .mk type handler :: rest, line => by
    rw [outlineCatches, ShapedAll, Shaped, ShapedAll, ShapedAll]
    exact ⟨⟨trivial, shaped_outline handler _, trivial⟩, shaped_outlineCatches rest _⟩

theorem shaped_outlineFinally : ∀ (finalizer : Option Stmt) (line : Nat),
    ShapedAll (outlineFinally line finalizer).1
  | none, line => by
    rw [outlineFinally, ShapedAll]
    trivial
  | some s, line => by
    rw [outlineFinally, ShapedAll, Shaped, ShapedAll, ShapedAll]
    exact ⟨⟨trivial, shaped_outline s _, trivial⟩, trivial⟩

end

end Stmt

end Attribution
