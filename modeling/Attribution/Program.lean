import Attribution.Constant
import Attribution.Label
/-!
# Programs

The statements and expressions that are analysed. There is no concrete text:
a program is its abstract form.
-/

namespace Attribution

inductive Expr where
  | bool (value : Bool)
  | int (value : Int64)
  | name (name : String)
  | unary (op : UnaryOp) (operand : Expr)
  | binary (op : BinaryOp) (left right : Expr)
  | call (callee : String) (args : List Expr)

mutual

inductive Stmt where
  | block (body : List Stmt)
  | expr (value : Expr)
  | const (name : String) (init : Expr)
  | ifThen (cond : Expr) (yes : Stmt) (no : Option Stmt)
  | whileLoop (cond : Expr) (body : Stmt)
  | doWhile (body : Stmt) (cond : Expr)
  | switch (selector : Expr) (cases : List Case)
  | labeled (label : String) (body : Stmt)
  | breakTo (label : Option String)
  | continueTo (label : Option String)
  | returns (value : Option Expr)
  | throws (type : ExcType)
  | tryCatch (body : Stmt) (catches : List Catch) (finalizer : Option Stmt)

inductive Case where
  | mk (isDefault : Bool) (body : List Stmt)

inductive Catch where
  | mk (type : ExcType) (handler : Stmt)

end

end Attribution
