import Attribution.Tree.Jump
/-!
# Program trees

The nodes of a program in preorder, with the two relations that leave the tree
structure: a jump leads to its target, and a name leads to the first constant
declaration of that name anywhere in the program.
-/

namespace Attribution

namespace Outline

/-- The numbers of consecutive subtrees, the first of which is numbered `id`. -/
def childIds (id : NodeId) : List Outline → List NodeId
  | [] => []
  | o :: rest => id :: childIds (id + o.size) rest

mutual

/-- The nodes in preorder, numbered from `id`. -/
def nodes (parent : Option NodeId) (index : Nat) (id : NodeId) : Outline → List Node
  | .mk kind location children =>
    ⟨kind, childIds (id + 1) children, parent, index, location⟩ ::
      nodesAll id 0 (id + 1) children

def nodesAll (parent : NodeId) (index : Nat) (id : NodeId) : List Outline → List Node
  | [] => []
  | o :: rest => o.nodes (some parent) index id ++ nodesAll parent (index + 1) (id + o.size) rest

end

end Outline

structure Tree where
  nodes : Array Node
  jumps : Array (Option JumpTarget)
  declarations : List (String × NodeId)

namespace Tree

def ofOutline (o : Outline) : Tree :=
  let nodes := o.nodes none 0 0
  let declared : Node × NodeId → Option (String × NodeId)
    | (⟨.constDecl name, _, _, _, _⟩, id) => some (name, id)
    | _ => none
  { nodes := nodes.toArray
    jumps := (o.jumps [] 0).toArray
    declarations := nodes.zipIdx.filterMap declared }

def ofProgram (program : Stmt) : Tree :=
  ofOutline (program.outline 0).1

def root (_ : Tree) : NodeId :=
  0

def size (t : Tree) : Nat :=
  t.nodes.size

def preorder (t : Tree) : List NodeId :=
  List.range t.size

def node? (t : Tree) (id : NodeId) : Option Node :=
  t.nodes[id]?

def parent? (t : Tree) (id : NodeId) : Option NodeId :=
  (t.node? id).bind Node.parent

/-- The target of a `break` or `continue`, and `none` for other nodes. -/
def jump? (t : Tree) (id : NodeId) : Option JumpTarget :=
  (t.jumps[id]?).join

/-- The declaration that a name refers to. -/
def binding? (t : Tree) (id : NodeId) : Option NodeId :=
  match t.node? id with
  | some ⟨.name name, _, _, _, _⟩ => t.declarations.lookup name
  | _ => none

def isStatement (t : Tree) (id : NodeId) : Bool :=
  (t.node? id).any fun n => n.kind.isStatement

/-- The children of a node that are no expressions. -/
def statements (t : Tree) (n : Node) : List NodeId :=
  n.children.filter t.isStatement

/-- The node itself and its ancestors, from the inside out. A parent has a
smaller number than its children, which bounds the walk. -/
def lineage (t : Tree) (id : NodeId) : List NodeId :=
  match t.parent? id with
  | some p => if p < id then id :: t.lineage p else [id]
  | none => [id]
termination_by id

end Tree

end Attribution
