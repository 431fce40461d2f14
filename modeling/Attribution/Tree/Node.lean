import Attribution.Diagnostic
import Attribution.Program
/-!
# Nodes

A node of a program tree, addressed by its number in preorder. Cases, catches
and finalizers are nodes of their own and count as statements.
-/

namespace Attribution

abbrev NodeId := Nat

inductive NodeKind where
  | block
  | exprStmt
  | constDecl (name : String)
  | ifThen
  | whileLoop
  | doWhile
  | switch
  | case (isDefault : Bool)
  | labeled (label : String)
  | breakTo (label : Option String)
  | continueTo (label : Option String)
  | returns
  | throws (type : ExcType)
  | tryCatch
  | catchClause (type : ExcType)
  | finallyClause
  | bool (value : Bool)
  | int (value : Int64)
  | name (name : String)
  | unary (op : UnaryOp)
  | binary (op : BinaryOp)
  | call (callee : String)
  deriving DecidableEq

namespace NodeKind

def title : NodeKind → String
  | .block => "block"
  | .exprStmt => "expr-stmt"
  | .constDecl _ => "const"
  | .ifThen => "if"
  | .whileLoop => "while"
  | .doWhile => "do-while"
  | .switch => "switch"
  | .case _ => "case"
  | .labeled _ => "labeled"
  | .breakTo _ => "break"
  | .continueTo _ => "continue"
  | .returns => "return"
  | .throws _ => "throw"
  | .tryCatch => "try"
  | .catchClause _ => "catch"
  | .finallyClause => "finally"
  | .bool _ => "bool"
  | .int _ => "int"
  | .name _ => "name"
  | .unary _ => "unary"
  | .binary _ => "binary"
  | .call _ => "call"

def isExpression : NodeKind → Bool
  | .bool _ | .int _ | .name _ | .unary _ | .binary _ | .call _ => true
  | _ => false

def isStatement (k : NodeKind) : Bool :=
  !k.isExpression

def isLoop : NodeKind → Bool
  | .whileLoop | .doWhile => true
  | _ => false

def isSequence : NodeKind → Bool
  | .block | .case _ => true
  | _ => false

end NodeKind

structure Node where
  kind : NodeKind
  children : List NodeId
  parent : Option NodeId
  index : Nat
  location : Location

end Attribution
