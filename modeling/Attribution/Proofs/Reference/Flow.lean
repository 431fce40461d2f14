import Attribution.Attribute.Equation
/-!
# Flow of control by recursion over the tree

What the attributes of the nodes are, without cells, units or an order of
evaluation. A node hands down to its children, from left to right, whether they
can be reached; a child hands up whether it completes and what leaves it. What
constants there are is a parameter `κ` here.
-/

namespace Attribution

/-- What a node learns from its surroundings. -/
structure Site where
  id : Nat
  parent : Option NodeId := none
  index : Nat := 0
  /-- The scopes around the node, innermost first. -/
  scopes : List Scope := []
  /-- The label of a labeled statement that holds nothing but the node. -/
  label : Option String := none
  reachable : Bool := true
  /-- The node begins a run of unreachable statements. -/
  unreachable : Bool := false

/-- What a node tells its surroundings. -/
structure Flow where
  completes : Bool
  breaks : LabelSet
  continues : LabelSet
  propagated : TypeSet

/-- A child, as its parent sees it. -/
structure Part where
  id : Nat
  kind : NodeKind
  flow : Flow

namespace NodeKind

def isCatch : NodeKind → Bool
  | .catchClause _ => true
  | _ => false

def caught? : NodeKind → Option ExcType
  | .catchClause type => some type
  | _ => none

/-- Parts of a statement that are never reported as unreachable themselves. -/
def isClause : NodeKind → Bool
  | .case _ | .catchClause _ | .finallyClause => true
  | _ => false

def labels? : NodeKind → Option String
  | .labeled label => some label
  | _ => none

end NodeKind

namespace Site

/-- Whether control may come to the child at a position. `before` is the child
to its left. -/
def enters (κ : NodeId → Option Const) (p : Site) (o : Outline) (index : Nat) :
    Option (Site × Flow) → Bool
  | none => p.reachable
  | some (_, flow) =>
    if o.kind.isSequence then flow.completes
    else if o.kind = .whileLoop && index = 1 then
      p.reachable && κ (p.id + 1) != some (.bool false)
    else p.reachable

/-- Whether control comes as far as the child to the left, if that matters. -/
def preceded (o : Outline) : Option (Site × Flow) → Bool
  | none => true
  | some (q, _) => if o.kind.isSequence then q.reachable else true

def child (κ : NodeId → Option Const) (p : Site) (o : Outline) (index id : Nat)
    (before : Option (Site × Flow)) (kind : NodeKind) : Site where
  id := id
  parent := some p.id
  index := index
  scopes := o.scopesWithin p.scopes p.id
  label := o.kind.labels?
  reachable := p.enters κ o index before
  unreachable := !kind.isClause && !p.enters κ o index before && p.reachable && preceded o before

end Site

namespace Flow

def finalizer? (parts : List Part) : Option Part :=
  parts.find? fun q => q.kind = .finallyClause

def catches (parts : List Part) : List Part :=
  parts.filter fun q => q.kind.isCatch

def breaksFree (q : Part) : Bool :=
  q.flow.breaks.contains .unlabeled

/-- Whether control may go past the end of a node. -/
def completesBy (κ : NodeId → Option Const) (p : Site) (kind : NodeKind) (parts : List Part) :
    Bool :=
  match kind, parts with
  | .breakTo _, _ | .continueTo _, _ | .returns, _ | .throws _, _ => false
  | .block, parts | .case _, parts | .catchClause _, parts | .finallyClause, parts =>
    match parts.getLast? with
    | some last => last.flow.completes
    | none => p.reachable
  | .ifThen, [_, yes, no] => yes.flow.completes || no.flow.completes
  | .whileLoop, [cond, body] =>
    p.reachable && (κ cond.id != some (.bool true) || breaksFree body)
  | .doWhile, [body, cond] =>
    let continued := body.flow.continues.contains .unlabeled ||
      p.label.any fun label => body.flow.continues.contains (.named label)
    (body.flow.completes || continued) && κ cond.id != some (.bool true) || breaksFree body
  | .labeled label, [body] => body.flow.completes || body.flow.breaks.contains (.named label)
  | .switch, _ :: cases =>
    match cases.getLast?.filter fun _ => cases.any fun c => c.kind = .case true with
    | none => p.reachable
    | some last => last.flow.completes || cases.any breaksFree
  | .tryCatch, body :: clauses =>
    let normal := body.flow.completes || (catches clauses).any fun q => q.flow.completes
    match finalizer? clauses with
    | some last => normal && last.flow.completes
    | none => normal
  | _, _ => p.reachable

/-- The jumps of one kind that leave a node: those of its parts, less those that
are meant for the node itself or do not get past its finalizer. -/
def escapesBy (kind : NodeKind) (own : NodeKind → Bool) (labels : Part → LabelSet)
    (parts : List Part) : LabelSet :=
  let all := (parts.filter fun q => q.kind.isStatement).foldl (fun found q => found.union (labels q))
    .empty
  match kind with
  | .labeled label => all.without (.named label)
  | .tryCatch =>
    match finalizer? parts.tail with
    | some last => if last.flow.completes then all else labels last
    | none => all
  | kind => if own kind then all.without .unlabeled else all

def jumpBy (p : Site) (kind : NodeKind) (label : Option String) : LabelSet :=
  match resolveJump p.scopes kind with
  | some (.ok _) => if p.reachable then .singleton (.ofLabel label) else .empty
  | _ => .empty

def breaksBy (p : Site) (kind : NodeKind) (parts : List Part) : LabelSet :=
  match kind with
  | .breakTo label => jumpBy p kind label
  | .continueTo _ => .empty
  | _ => escapesBy kind (fun k => k.isLoop || k = .switch) (fun q => q.flow.breaks) parts

def continuesBy (p : Site) (kind : NodeKind) (parts : List Part) : LabelSet :=
  match kind with
  | .continueTo label => jumpBy p kind label
  | .breakTo _ => .empty
  | _ => escapesBy kind NodeKind.isLoop (fun q => q.flow.continues) parts

def raisedBy (s : Subject) (id : NodeId) : TypeSet :=
  match s.rules.raised s.tree id with
  | .ok types => types
  | .error _ => .empty

def propagatedBy (s : Subject) (p : Site) (kind : NodeKind) (parts : List Part) : TypeSet :=
  let joined (found : TypeSet) (qs : List Part) : TypeSet :=
    qs.foldl (fun found q => found.union q.flow.propagated) found
  if !p.reachable then .empty
  else match kind, parts with
    | .tryCatch, body :: clauses =>
      let thrown := body.flow.propagated.retain fun type =>
        !(clauses.filterMap fun q => q.kind.caught?).any (s.rules.isSubtype type)
      let leaving := joined thrown (catches clauses)
      (raisedBy s p.id).union <| match finalizer? clauses with
        | none => leaving
        | some last =>
          if last.flow.completes then leaving.union last.flow.propagated else last.flow.propagated
    | _, _ => joined (raisedBy s p.id) parts

/-- What a node tells its surroundings, as it follows from its parts. -/
def ofParts (κ : NodeId → Option Const) (s : Subject) (p : Site) (kind : NodeKind)
    (parts : List Part) : Flow where
  completes := completesBy κ p kind parts
  breaks := breaksBy p kind parts
  continues := continuesBy p kind parts
  propagated := propagatedBy s p kind parts

end Flow

namespace Outline

variable (κ : NodeId → Option Const) (s : Subject)

mutual

def flow (p : Site) : Outline → Flow
  | .mk kind location children =>
    .ofParts κ s p kind (parts p (.mk kind location children) 0 (p.id + 1) none children)

def parts (p : Site) (o : Outline) (index id : Nat) (before : Option (Site × Flow)) :
    List Outline → List Part
  | [] => []
  | c :: rest =>
    let q := p.child κ o index id before c.kind
    let f := c.flow q
    ⟨id, c.kind, f⟩ :: parts p o (index + 1) (id + c.size) (some (q, f)) rest

end

def childSites (p : Site) (o : Outline) (index id : Nat)
    (before : Option (Site × Flow)) : List Outline → List (Site × Outline)
  | [] => []
  | c :: rest =>
    let q := p.child κ o index id before c.kind
    (q, c) :: childSites p o (index + 1) (id + c.size) (some (q, c.flow κ s q)) rest

mutual

def sites (p : Site) : Outline → List (Site × Outline)
  | .mk kind location children =>
    (p, .mk kind location children) ::
      sitesAll p (.mk kind location children) 0 (p.id + 1) none children

def sitesAll (p : Site) (o : Outline) (index id : Nat)
    (before : Option (Site × Flow)) : List Outline → List (Site × Outline)
  | [] => []
  | c :: rest =>
    let q := p.child κ o index id before c.kind
    c.sites q ++ sitesAll p o (index + 1) (id + c.size) (some (q, c.flow κ s q)) rest

end

end Outline

end Attribution
