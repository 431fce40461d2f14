import Mathlib.Logic.Relation
import Attribution.Attribute.Escape
/-!
# Executions

What a program may do when it runs, in big steps. Nothing is known of values
except the constants `κ`: a guard that is constant takes its value, every other
guard any value, `if` and `switch` take any branch, and a call raises whatever its
function may raise, or nothing. `Exec` relates what is executed to how it may
end; `Starts` says which children a node hands control to, whether it ends or not.
-/

namespace Attribution

/-- How an execution ends. A jump has the label it was written with, and the node
it leads to. -/
inductive Outcome where
  | normal
  | jumped (j : Jump) (label : JumpLabel) (target : NodeId)
  | returned
  | raised (type : ExcType)
  deriving DecidableEq

/-- What is executed: a node, some nodes one after the other, or the body of a try
statement with the handlers among the clauses that follow it. -/
inductive Task where
  | node (id : NodeId)
  | all (ids : List NodeId)
  | handled (body : NodeId) (clauses : List NodeId)

/-- What becomes of an outcome at the end of the statement `id`: a break to that
statement is over. -/
def Outcome.beyond (id : NodeId) : Outcome → Outcome
  | .jumped .break label target => if target = id then .normal else .jumped .break label target
  | o => o

namespace NodeKind

/-- Expressions, and statements that evaluate expressions and are done. -/
def isStraight : NodeKind → Bool
  | .exprStmt | .constDecl _ | .returns => true
  | kind => kind.isExpression

/-- Statements that are no more than the statements in them. -/
def isBody : NodeKind → Bool
  | .block | .case _ | .catchClause _ | .finallyClause => true
  | _ => false

/-- Statements that first evaluate an expression. -/
def isSelective : NodeKind → Bool
  | .ifThen | .whileLoop | .switch => true
  | _ => false

def result : NodeKind → Outcome
  | .returns => .returned
  | _ => .normal

end NodeKind

namespace Tree

def kind? (t : Tree) (id : NodeId) : Option NodeKind :=
  (t.node? id).map Node.kind

def Has (t : Tree) (id : NodeId) (kind : NodeKind) (children : List NodeId) : Prop :=
  ∃ n, t.node? id = some n ∧ n.kind = kind ∧ n.children = children

end Tree

/-- The values that a guard may take. -/
def Guard (κ : NodeId → Option Const) (cond : NodeId) (value : Bool) : Prop :=
  ∀ b, κ cond = some (.bool b) → value = b

namespace Subject

variable (s : Subject)

def handler? (clauses : List NodeId) (type : ExcType) : Option NodeId :=
  clauses.find? fun c => ((s.tree.kind? c).bind fun
    | .catchClause caught => some caught
    | _ => none).any (s.rules.isSubtype type)

def finalizer? (clauses : List NodeId) : Option NodeId :=
  clauses.find? fun c => s.tree.kind? c = some .finallyClause

/-- Whether a loop goes on when its body has ended: it does at the body's end, and
by a continue to the loop or to the label that stands directly on it. -/
def Repeats (loop : NodeId) : Outcome → Prop
  | .normal => True
  | .jumped .continue _ target => target = loop ∨
    (s.tree.parent? loop = some target ∧
      ∃ label children, s.tree.Has target (.labeled label) children)
  | _ => False

variable (κ : NodeId → Option Const)

inductive Exec : Task → Outcome → Prop where
  | done : Exec (.all []) .normal
  | next {c : NodeId} {rest : List NodeId} {o : Outcome} (hc : Exec (.node c) .normal)
    (hrest : Exec (.all rest) o) : Exec (.all (c :: rest)) o
  | stop {c : NodeId} {rest : List NodeId} {o : Outcome} (hc : Exec (.node c) o)
    (ho : o ≠ .normal) : Exec (.all (c :: rest)) o
  | straight {id : NodeId} {kind : NodeKind} {children : List NodeId}
    (hn : s.tree.Has id kind children) (hk : kind.isStraight = true)
    (hall : Exec (.all children) .normal) : Exec (.node id) kind.result
  | straightRaise {id : NodeId} {kind : NodeKind} {children : List NodeId} {type : ExcType}
    (hn : s.tree.Has id kind children) (hk : kind.isStraight = true)
    (hall : Exec (.all children) (.raised type)) : Exec (.node id) (.raised type)
  /-- The right operand of a logical operator may be left out. -/
  | shortcut {id left right : NodeId} {op : BinaryOp}
    (hn : s.tree.Has id (.binary op) [left, right]) (hop : op = .and ∨ op = .or)
    (hleft : Exec (.node left) .normal) : Exec (.node id) .normal
  | callRaise {id : NodeId} {callee : String} {args : List NodeId} {types : TypeSet}
    {type : ExcType} (hn : s.tree.Has id (.call callee) args) (hargs : Exec (.all args) .normal)
    (hraised : s.rules.raised s.tree id = .ok types) (htype : types.contains type = true) :
    Exec (.node id) (.raised type)
  | body {id : NodeId} {kind : NodeKind} {children : List NodeId} {o : Outcome}
    (hn : s.tree.Has id kind children) (hk : kind.isBody = true) (hall : Exec (.all children) o) :
    Exec (.node id) o
  | testRaise {id test : NodeId} {kind : NodeKind} {rest : List NodeId} {type : ExcType}
    (hn : s.tree.Has id kind (test :: rest)) (hk : kind.isSelective = true)
    (htest : Exec (.node test) (.raised type)) : Exec (.node id) (.raised type)
  | branch {id cond branch : NodeId} {branches : List NodeId} {o : Outcome}
    (hn : s.tree.Has id .ifThen (cond :: branches)) (hcond : Exec (.node cond) .normal)
    (hmem : branch ∈ branches) (hbranch : Exec (.node branch) o) : Exec (.node id) o
  | branchSkip {id cond yes : NodeId} (hn : s.tree.Has id .ifThen [cond, yes])
    (hcond : Exec (.node cond) .normal) : Exec (.node id) .normal
  | whileExit {id cond body : NodeId} (hn : s.tree.Has id .whileLoop [cond, body])
    (hcond : Exec (.node cond) .normal) (hguard : Guard κ cond false) : Exec (.node id) .normal
  | whileLeave {id cond body : NodeId} {o : Outcome} (hn : s.tree.Has id .whileLoop [cond, body])
    (hcond : Exec (.node cond) .normal) (hguard : Guard κ cond true)
    (hbody : Exec (.node body) o) (ho : ¬s.Repeats id o) : Exec (.node id) (o.beyond id)
  | whileRepeat {id cond body : NodeId} {o o' : Outcome}
    (hn : s.tree.Has id .whileLoop [cond, body]) (hcond : Exec (.node cond) .normal)
    (hguard : Guard κ cond true) (hbody : Exec (.node body) o) (ho : s.Repeats id o)
    (hagain : Exec (.node id) o') : Exec (.node id) o'
  | doLeave {id body cond : NodeId} {o : Outcome} (hn : s.tree.Has id .doWhile [body, cond])
    (hbody : Exec (.node body) o) (ho : ¬s.Repeats id o) : Exec (.node id) (o.beyond id)
  | doRaise {id body cond : NodeId} {o : Outcome} {type : ExcType}
    (hn : s.tree.Has id .doWhile [body, cond]) (hbody : Exec (.node body) o) (ho : s.Repeats id o)
    (hcond : Exec (.node cond) (.raised type)) : Exec (.node id) (.raised type)
  | doExit {id body cond : NodeId} {o : Outcome} (hn : s.tree.Has id .doWhile [body, cond])
    (hbody : Exec (.node body) o) (ho : s.Repeats id o) (hcond : Exec (.node cond) .normal)
    (hguard : Guard κ cond false) : Exec (.node id) .normal
  | doRepeat {id body cond : NodeId} {o o' : Outcome} (hn : s.tree.Has id .doWhile [body, cond])
    (hbody : Exec (.node body) o) (ho : s.Repeats id o) (hcond : Exec (.node cond) .normal)
    (hguard : Guard κ cond true) (hagain : Exec (.node id) o') : Exec (.node id) o'
  /-- Control enters any case and falls through to the ones after it. -/
  | switch {id selector case : NodeId} {before after : List NodeId} {o : Outcome}
    (hn : s.tree.Has id .switch (selector :: (before ++ case :: after)))
    (hselector : Exec (.node selector) .normal) (hall : Exec (.all (case :: after)) o) :
    Exec (.node id) (o.beyond id)
  | switchSkip {id selector : NodeId} {cases : List NodeId}
    (hn : s.tree.Has id .switch (selector :: cases)) (hselector : Exec (.node selector) .normal)
    (hdefault : ∀ c ∈ cases, s.tree.kind? c ≠ some (.case true)) : Exec (.node id) .normal
  | labeled {id body : NodeId} {label : String} {o : Outcome}
    (hn : s.tree.Has id (.labeled label) [body]) (hbody : Exec (.node body) o) :
    Exec (.node id) (o.beyond id)
  | breakTo {id target : NodeId} {label : Option String} {children : List NodeId}
    (hn : s.tree.Has id (.breakTo label) children) (htarget : s.tree.jump? id = some (.ok target)) :
    Exec (.node id) (.jumped .break (.ofLabel label) target)
  | continueTo {id target : NodeId} {label : Option String} {children : List NodeId}
    (hn : s.tree.Has id (.continueTo label) children)
    (htarget : s.tree.jump? id = some (.ok target)) :
    Exec (.node id) (.jumped .continue (.ofLabel label) target)
  | throws {id : NodeId} {type : ExcType} {children : List NodeId}
    (hn : s.tree.Has id (.throws type) children) : Exec (.node id) (.raised type)
  | unhandled {body : NodeId} {clauses : List NodeId} {o : Outcome} (hbody : Exec (.node body) o)
    (ho : ∀ type, o = .raised type → s.handler? clauses type = none) :
    Exec (.handled body clauses) o
  | handled {body handler : NodeId} {clauses : List NodeId} {type : ExcType} {o : Outcome}
    (hbody : Exec (.node body) (.raised type)) (hfirst : s.handler? clauses type = some handler)
    (hhandler : Exec (.node handler) o) : Exec (.handled body clauses) o
  | tryPlain {id body : NodeId} {clauses : List NodeId} {o : Outcome}
    (hn : s.tree.Has id .tryCatch (body :: clauses)) (hnone : s.finalizer? clauses = none)
    (hbody : Exec (.handled body clauses) o) : Exec (.node id) o
  | tryFinally {id body last : NodeId} {clauses : List NodeId} {o : Outcome}
    (hn : s.tree.Has id .tryCatch (body :: clauses)) (hlast : s.finalizer? clauses = some last)
    (hbody : Exec (.handled body clauses) o) (hfinal : Exec (.node last) .normal) :
    Exec (.node id) o
  /-- A finalizer that does not end normally has the last word. -/
  | tryOverride {id body last : NodeId} {clauses : List NodeId} {o o' : Outcome}
    (hn : s.tree.Has id .tryCatch (body :: clauses)) (hlast : s.finalizer? clauses = some last)
    (hbody : Exec (.handled body clauses) o) (hfinal : Exec (.node last) o')
    (ho : o' ≠ .normal) : Exec (.node id) o'

/-- While the first node is executed, the execution of the second, its child,
begins. -/
inductive Starts : NodeId → NodeId → Prop where
  | inOrder {id c : NodeId} {kind : NodeKind} {before after : List NodeId}
    (hn : s.tree.Has id kind (before ++ c :: after))
    (hk : kind.isStraight = true ∨ kind.isBody = true) (hall : s.Exec κ (.all before) .normal) :
    Starts id c
  /-- Whatever comes first in a statement is executed first. -/
  | first {id c : NodeId} {kind : NodeKind} {rest : List NodeId}
    (hn : s.tree.Has id kind (c :: rest)) : Starts id c
  | branch {id cond branch : NodeId} {branches : List NodeId}
    (hn : s.tree.Has id .ifThen (cond :: branches)) (hcond : s.Exec κ (.node cond) .normal)
    (hmem : branch ∈ branches) : Starts id branch
  | whileBody {id cond body : NodeId} (hn : s.tree.Has id .whileLoop [cond, body])
    (hcond : s.Exec κ (.node cond) .normal) (hguard : Guard κ cond true) : Starts id body
  | doCond {id body cond : NodeId} {o : Outcome} (hn : s.tree.Has id .doWhile [body, cond])
    (hbody : s.Exec κ (.node body) o) (ho : s.Repeats id o) : Starts id cond
  | case {id selector case : NodeId} {cases : List NodeId}
    (hn : s.tree.Has id .switch (selector :: cases)) (hselector : s.Exec κ (.node selector) .normal)
    (hmem : case ∈ cases) : Starts id case
  | handler {id body handler : NodeId} {clauses : List NodeId} {type : ExcType}
    (hn : s.tree.Has id .tryCatch (body :: clauses)) (hbody : s.Exec κ (.node body) (.raised type))
    (hfirst : s.handler? clauses type = some handler) : Starts id handler
  | finalizer {id body last : NodeId} {clauses : List NodeId} {o : Outcome}
    (hn : s.tree.Has id .tryCatch (body :: clauses)) (hbody : s.Exec κ (.handled body clauses) o)
    (hlast : s.finalizer? clauses = some last) : Starts id last

/-- An execution of the whole program comes to the node. -/
def Entered (id : NodeId) : Prop :=
  Relation.ReflTransGen (s.Starts κ) s.tree.root id

end Subject

end Attribution
