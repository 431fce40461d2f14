import Attribution.Tree.Node
/-!
# Outlines

The shape of a program: every statement, arm, handler and expression as a node
with its location, before nodes are numbered. Each statement node takes the
next line, at column 1; the expressions of a statement stand on the line
reached so far, at columns counted from 2 in the order they are met.
-/

namespace Attribution

inductive Outline where
  | mk (kind : NodeKind) (location : Location) (children : List Outline)

namespace Outline

def kind : Outline → NodeKind
  | .mk kind _ _ => kind

def location : Outline → Location
  | .mk _ location _ => location

def children : Outline → List Outline
  | .mk _ _ children => children

mutual

def size : Outline → Nat
  | .mk _ _ children => sizeAll children + 1

def sizeAll : List Outline → Nat
  | [] => 0
  | o :: rest => o.size + sizeAll rest

end

end Outline

namespace Expr

mutual

/-- The outline of an expression on `line` after `column`, and the last column
it takes. -/
def outline (line column : Nat) : Expr → Outline × Nat
  | .bool value => (.mk (.bool value) ⟨line, column + 1⟩ [], column + 1)
  | .int value => (.mk (.int value) ⟨line, column + 1⟩ [], column + 1)
  | .name x => (.mk (.name x) ⟨line, column + 1⟩ [], column + 1)
  | .unary op operand =>
    let (x, last) := operand.outline line (column + 1)
    (.mk (.unary op) ⟨line, column + 1⟩ [x], last)
  | .binary op left right =>
    let (x, middle) := left.outline line (column + 1)
    let (y, last) := right.outline line middle
    (.mk (.binary op) ⟨line, column + 1⟩ [x, y], last)
  | .call callee args =>
    let (xs, last) := outlineAll line (column + 1) args
    (.mk (.call callee) ⟨line, column + 1⟩ xs, last)

def outlineAll (line column : Nat) : List Expr → List Outline × Nat
  | [] => ([], column)
  | e :: rest =>
    let (x, middle) := e.outline line column
    let (xs, last) := outlineAll line middle rest
    (x :: xs, last)

end

/-- The outline of the only expression of a statement on `line`. -/
def outlineOn (line : Nat) (e : Expr) : Outline :=
  (e.outline line 1).1

end Expr

namespace Stmt

mutual

/-- The outline of a statement after `line`, and the last line it takes. -/
def outline (line : Nat) : Stmt → Outline × Nat
  | .block body =>
    let (xs, last) := outlineAll (line + 1) body
    (.mk .block ⟨line + 1, 1⟩ xs, last)
  | .expr value => (.mk .exprStmt ⟨line + 1, 1⟩ [value.outlineOn (line + 1)], line + 1)
  | .const name init =>
    (.mk (.constDecl name) ⟨line + 1, 1⟩ [init.outlineOn (line + 1)], line + 1)
  | .ifThen cond yes no =>
    let (x, middle) := yes.outline (line + 1)
    let (ys, last) := outlineOpt middle no
    (.mk .ifThen ⟨line + 1, 1⟩ (cond.outlineOn (line + 1) :: x :: ys), last)
  | .whileLoop cond body =>
    let (x, last) := body.outline (line + 1)
    (.mk .whileLoop ⟨line + 1, 1⟩ [cond.outlineOn (line + 1), x], last)
  | .doWhile body cond =>
    let (x, last) := body.outline (line + 1)
    (.mk .doWhile ⟨line + 1, 1⟩ [x, cond.outlineOn last], last)
  | .switch selector cases =>
    let (xs, last) := outlineCases (line + 1) cases
    (.mk .switch ⟨line + 1, 1⟩ (selector.outlineOn (line + 1) :: xs), last)
  | .labeled label body =>
    let (x, last) := body.outline (line + 1)
    (.mk (.labeled label) ⟨line + 1, 1⟩ [x], last)
  | .breakTo label => (.mk (.breakTo label) ⟨line + 1, 1⟩ [], line + 1)
  | .continueTo label => (.mk (.continueTo label) ⟨line + 1, 1⟩ [], line + 1)
  | .returns value =>
    (.mk .returns ⟨line + 1, 1⟩ (value.toList.map (Expr.outlineOn (line + 1))), line + 1)
  | .throws type => (.mk (.throws type) ⟨line + 1, 1⟩ [], line + 1)
  | .tryCatch body catches finalizer =>
    let (x, first) := body.outline (line + 1)
    let (ys, second) := outlineCatches first catches
    let (zs, last) := outlineFinally second finalizer
    (.mk .tryCatch ⟨line + 1, 1⟩ (x :: ys ++ zs), last)

def outlineAll (line : Nat) : List Stmt → List Outline × Nat
  | [] => ([], line)
  | s :: rest =>
    let (x, middle) := s.outline line
    let (xs, last) := outlineAll middle rest
    (x :: xs, last)

def outlineOpt (line : Nat) : Option Stmt → List Outline × Nat
  | none => ([], line)
  | some s =>
    let (x, last) := s.outline line
    ([x], last)

def outlineCases (line : Nat) : List Case → List Outline × Nat
  | [] => ([], line)
  | .mk isDefault body :: rest =>
    let (xs, middle) := outlineAll (line + 1) body
    let (ys, last) := outlineCases middle rest
    (.mk (.case isDefault) ⟨line + 1, 1⟩ xs :: ys, last)

def outlineCatches (line : Nat) : List Catch → List Outline × Nat
  | [] => ([], line)
  | .mk type handler :: rest =>
    let (x, middle) := handler.outline (line + 1)
    let (ys, last) := outlineCatches middle rest
    (.mk (.catchClause type) ⟨line + 1, 1⟩ [x] :: ys, last)

def outlineFinally (line : Nat) : Option Stmt → List Outline × Nat
  | none => ([], line)
  | some s =>
    let (x, last) := s.outline (line + 1)
    ([.mk .finallyClause ⟨line + 1, 1⟩ [x]], last)

end

end Stmt

end Attribution
