import Attribution.Proofs.Reference.Subtree
/-!
# The layout of program trees

What the children of a node of each kind are, by the roles they play. Every node of the
outline of a program has the layout of its kind (`Stmt.laid_outline`, `layout_of_mem`).
-/

namespace Attribution

/-- What a node is to its parent. -/
inductive Role where
  | expression
  | statement
  | arm
  | handler
  | finalizer
  deriving DecidableEq

namespace NodeKind

def role : NodeKind → Role
  | .case _ => .arm
  | .catchClause _ => .handler
  | .finallyClause => .finalizer
  | .bool _ | .int _ | .name _ | .unary _ | .binary _ | .call _ => .expression
  | _ => .statement

def Layout : NodeKind → List Role → Prop
  | .block, roles | .case _, roles => ∀ r ∈ roles, r = .statement
  | .exprStmt, roles | .constDecl _, roles => roles = [.expression]
  | .ifThen, roles =>
    roles = [.expression, .statement] ∨ roles = [.expression, .statement, .statement]
  | .whileLoop, roles => roles = [.expression, .statement]
  | .doWhile, roles => roles = [.statement, .expression]
  | .switch, roles => ∃ arms, roles = .expression :: arms ∧ ∀ r ∈ arms, r = .arm
  | .labeled _, roles | .catchClause _, roles | .finallyClause, roles => roles = [.statement]
  | .breakTo _, roles | .continueTo _, roles | .throws _, roles => roles = []
  | .returns, roles => roles = [] ∨ roles = [.expression]
  | .tryCatch, roles => ∃ handlers last, roles = .statement :: handlers ++ last ∧
    (∀ r ∈ handlers, r = .handler) ∧ (last = [] ∨ last = [.finalizer])
  | .bool _, roles | .int _, roles | .name _, roles => roles = []
  | .unary _, roles => roles = [.expression]
  | .binary _, roles => roles = [.expression, .expression]
  | .call _, roles => ∀ r ∈ roles, r = .expression

end NodeKind

namespace Outline

def role (o : Outline) : Role :=
  o.kind.role

mutual

def Laid : Outline → Prop
  | .mk kind _ children => kind.Layout (children.map role) ∧ LaidAll children

def LaidAll : List Outline → Prop
  | [] => True
  | o :: rest => o.Laid ∧ LaidAll rest

end

theorem laidAll_append {xs ys : List Outline} (hx : LaidAll xs) (hy : LaidAll ys) :
    LaidAll (xs ++ ys) := by
  induction xs with
  | nil => exact hy
  | cons x rest ih =>
    rw [LaidAll] at hx
    rw [List.cons_append, LaidAll]
    exact ⟨hx.1, ih hx.2⟩

mutual

theorem layout_of_mem {κ : NodeId → Option Const} {s : Subject} {p : Site} {x : Site × Outline} :
    ∀ o : Outline, o.Laid → x ∈ o.sites κ s p → x.2.kind.Layout (x.2.children.map role)
  | .mk kind location children, hs, hx => by
    rw [Laid] at hs
    rw [sites] at hx
    rcases List.mem_cons.1 hx with rfl | hx
    · exact hs.1
    · exact layout_of_mem_all children hs.2 hx

theorem layout_of_mem_all {κ : NodeId → Option Const} {s : Subject} {p : Site} {o : Outline}
    {x : Site × Outline} : ∀ (cs : List Outline) {index id : Nat} {before : Option (Site × Flow)},
    LaidAll cs → x ∈ sitesAll κ s p o index id before cs →
    x.2.kind.Layout (x.2.children.map role)
  | [], _, _, _, _, hx => by
    rw [sitesAll] at hx
    cases hx
  | c :: rest, _, _, _, hs, hx => by
    rw [LaidAll] at hs
    rw [sitesAll] at hx
    rcases List.mem_append.1 hx with hx | hx
    · exact layout_of_mem c hs.1 hx
    · exact layout_of_mem_all rest hs.2 hx

end

end Outline

namespace Expr

open Outline

theorem role_outline (e : Expr) (line column : Nat) :
    (e.outline line column).1.role = .expression := by
  cases e with
  | bool | int | name | unary | binary | call =>
    rw [outline]
    rfl

theorem role_outlineOn (e : Expr) (line : Nat) : (e.outlineOn line).role = .expression :=
  e.role_outline line 1

theorem role_outlineAll : ∀ (es : List Expr) (line column : Nat),
    ∀ r ∈ (outlineAll line column es).1.map role, r = .expression
  | [], line, column, r, hr => by
    rw [outlineAll] at hr
    cases hr
  | e :: rest, line, column, r, hr => by
    rw [outlineAll, List.map_cons] at hr
    rcases List.mem_cons.1 hr with rfl | hr
    · exact e.role_outline _ _
    · exact role_outlineAll rest _ _ r hr

mutual

theorem laid_outline : ∀ (e : Expr) (line column : Nat), (e.outline line column).1.Laid
  | .bool _, line, column | .int _, line, column | .name _, line, column => by
    rw [outline, Laid, LaidAll]
    exact ⟨rfl, trivial⟩
  | .unary op operand, line, column => by
    rw [outline, Laid, LaidAll, LaidAll]
    refine ⟨?_, laid_outline operand _ _, trivial⟩
    rw [NodeKind.Layout, List.map_cons, role_outline, List.map_nil]
  | .binary op left right, line, column => by
    rw [outline, Laid, LaidAll, LaidAll, LaidAll]
    refine ⟨?_, laid_outline left _ _, laid_outline right _ _, trivial⟩
    rw [NodeKind.Layout, List.map_cons, List.map_cons, role_outline, role_outline, List.map_nil]
  | .call callee args, line, column => by
    rw [outline, Laid]
    exact ⟨role_outlineAll args _ _, laid_outlineAll args _ _⟩

theorem laid_outlineAll : ∀ (es : List Expr) (line column : Nat),
    LaidAll (outlineAll line column es).1
  | [], line, column => by
    rw [outlineAll, LaidAll]
    trivial
  | e :: rest, line, column => by
    rw [outlineAll, LaidAll]
    exact ⟨laid_outline e _ _, laid_outlineAll rest _ _⟩

end

theorem laid_outlineOn (line : Nat) (e : Expr) : (e.outlineOn line).Laid :=
  laid_outline e line 1

end Expr

namespace Stmt

open Outline

theorem role_outline (s : Stmt) (line : Nat) : (s.outline line).1.role = .statement := by
  cases s with
  | block | expr | const | ifThen | whileLoop | doWhile | switch | labeled | breakTo | continueTo
  | returns | throws | tryCatch =>
    rw [outline]
    rfl

theorem role_outlineAll : ∀ (body : List Stmt) (line : Nat),
    ∀ r ∈ (outlineAll line body).1.map role, r = .statement
  | [], line, r, hr => by
    rw [outlineAll] at hr
    cases hr
  | s :: rest, line, r, hr => by
    rw [outlineAll, List.map_cons] at hr
    rcases List.mem_cons.1 hr with rfl | hr
    · exact s.role_outline _
    · exact role_outlineAll rest _ r hr

theorem role_outlineOpt (no : Option Stmt) (line : Nat) :
    (outlineOpt line no).1.map role = [] ∨ (outlineOpt line no).1.map role = [.statement] := by
  cases no with
  | none =>
    rw [outlineOpt]
    exact .inl rfl
  | some s =>
    rw [outlineOpt, List.map_cons, role_outline, List.map_nil]
    exact .inr rfl

theorem role_outlineCases : ∀ (cases : List Case) (line : Nat),
    ∀ r ∈ (outlineCases line cases).1.map role, r = .arm
  | [], line, r, hr => by
    rw [outlineCases] at hr
    cases hr
  | .mk isDefault body :: rest, line, r, hr => by
    rw [outlineCases, List.map_cons] at hr
    rcases List.mem_cons.1 hr with rfl | hr
    · rfl
    · exact role_outlineCases rest _ r hr

theorem role_outlineCatches : ∀ (catches : List Catch) (line : Nat),
    ∀ r ∈ (outlineCatches line catches).1.map role, r = .handler
  | [], line, r, hr => by
    rw [outlineCatches] at hr
    cases hr
  | .mk type handler :: rest, line, r, hr => by
    rw [outlineCatches, List.map_cons] at hr
    rcases List.mem_cons.1 hr with rfl | hr
    · rfl
    · exact role_outlineCatches rest _ r hr

theorem role_outlineFinally (finalizer : Option Stmt) (line : Nat) :
    (outlineFinally line finalizer).1.map role = [] ∨
      (outlineFinally line finalizer).1.map role = [.finalizer] := by
  cases finalizer with
  | none =>
    rw [outlineFinally]
    exact .inl rfl
  | some s =>
    rw [outlineFinally]
    exact .inr rfl

mutual

theorem laid_outline : ∀ (s : Stmt) (line : Nat), (s.outline line).1.Laid
  | .block body, line => by
    rw [outline, Laid]
    exact ⟨role_outlineAll body _, laid_outlineAll body _⟩
  | .expr value, line | .const _ value, line => by
    rw [outline, Laid, LaidAll, LaidAll]
    refine ⟨?_, value.laid_outlineOn _, trivial⟩
    rw [NodeKind.Layout, List.map_cons, Expr.role_outlineOn, List.map_nil]
  | .ifThen cond yes no, line => by
    rw [outline, Laid, LaidAll, LaidAll]
    refine ⟨?_, cond.laid_outlineOn _, laid_outline yes _, laid_outlineOpt no _⟩
    rw [NodeKind.Layout, List.map_cons, List.map_cons, Expr.role_outlineOn, role_outline]
    rcases role_outlineOpt no (yes.outline (line + 1)).2 with h | h
    · exact .inl (by rw [h])
    · exact .inr (by rw [h])
  | .whileLoop cond body, line => by
    rw [outline, Laid, LaidAll, LaidAll, LaidAll]
    refine ⟨?_, cond.laid_outlineOn _, laid_outline body _, trivial⟩
    rw [NodeKind.Layout, List.map_cons, List.map_cons, Expr.role_outlineOn, role_outline,
      List.map_nil]
  | .doWhile body cond, line => by
    rw [outline, Laid, LaidAll, LaidAll, LaidAll]
    refine ⟨?_, laid_outline body _, cond.laid_outlineOn _, trivial⟩
    rw [NodeKind.Layout, List.map_cons, List.map_cons, Expr.role_outlineOn, role_outline,
      List.map_nil]
  | .switch selector cases, line => by
    rw [outline, Laid, LaidAll]
    refine ⟨?_, selector.laid_outlineOn _, laid_outlineCases cases _⟩
    rw [NodeKind.Layout, List.map_cons, Expr.role_outlineOn]
    exact ⟨_, rfl, role_outlineCases cases _⟩
  | .labeled label body, line => by
    rw [outline, Laid, LaidAll, LaidAll]
    refine ⟨?_, laid_outline body _, trivial⟩
    rw [NodeKind.Layout, List.map_cons, role_outline, List.map_nil]
  | .breakTo _, line | .continueTo _, line | .throws _, line => by
    rw [outline, Laid, LaidAll]
    exact ⟨rfl, trivial⟩
  | .returns none, line => by
    rw [outline, Laid]
    exact ⟨.inl rfl, trivial⟩
  | .returns (some value), line => by
    rw [outline, Laid]
    refine ⟨.inr ?_, value.laid_outlineOn _, trivial⟩
    rw [Option.toList_some, List.map_cons, List.map_cons, Expr.role_outlineOn, List.map_nil,
      List.map_nil]
  | .tryCatch body catches finalizer, line => by
    rw [outline, Laid]
    constructor
    · rw [NodeKind.Layout, List.map_append, List.map_cons, role_outline]
      exact ⟨_, _, rfl, role_outlineCatches catches _, role_outlineFinally finalizer _⟩
    · rw [List.cons_append, LaidAll]
      exact ⟨laid_outline body _, laidAll_append (laid_outlineCatches catches _)
        (laid_outlineFinally finalizer _)⟩

theorem laid_outlineAll : ∀ (body : List Stmt) (line : Nat), LaidAll (outlineAll line body).1
  | [], line => by
    rw [outlineAll, LaidAll]
    trivial
  | s :: rest, line => by
    rw [outlineAll, LaidAll]
    exact ⟨laid_outline s _, laid_outlineAll rest _⟩

theorem laid_outlineOpt : ∀ (no : Option Stmt) (line : Nat), LaidAll (outlineOpt line no).1
  | none, line => by
    rw [outlineOpt, LaidAll]
    trivial
  | some s, line => by
    rw [outlineOpt, LaidAll, LaidAll]
    exact ⟨laid_outline s _, trivial⟩

theorem laid_outlineCases : ∀ (cases : List Case) (line : Nat),
    LaidAll (outlineCases line cases).1
  | [], line => by
    rw [outlineCases, LaidAll]
    trivial
  | .mk isDefault body :: rest, line => by
    rw [outlineCases, LaidAll, Laid]
    exact ⟨⟨role_outlineAll body _, laid_outlineAll body _⟩, laid_outlineCases rest _⟩

theorem laid_outlineCatches : ∀ (catches : List Catch) (line : Nat),
    LaidAll (outlineCatches line catches).1
  | [], line => by
    rw [outlineCatches, LaidAll]
    trivial
  | .mk type handler :: rest, line => by
    rw [outlineCatches, LaidAll, Laid, LaidAll, LaidAll]
    refine ⟨⟨?_, laid_outline handler _, trivial⟩, laid_outlineCatches rest _⟩
    rw [NodeKind.Layout, List.map_cons, role_outline, List.map_nil]

theorem laid_outlineFinally : ∀ (finalizer : Option Stmt) (line : Nat),
    LaidAll (outlineFinally line finalizer).1
  | none, line => by
    rw [outlineFinally, LaidAll]
    trivial
  | some s, line => by
    rw [outlineFinally, LaidAll, Laid, LaidAll, LaidAll]
    refine ⟨⟨?_, laid_outline s _, trivial⟩, trivial⟩
    rw [NodeKind.Layout, List.map_cons, role_outline, List.map_nil]

end

end Stmt

end Attribution
