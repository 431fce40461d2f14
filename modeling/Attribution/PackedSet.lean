/-!
# Packed sets

Immutable ordered sets. Most sets of an analysis hold no element or one, so
these two sizes have a representation of their own. The elements of a larger
set stand in strictly ascending order, which makes the representation
canonical: equal sets are equal values.
-/

namespace Attribution

inductive PackedSet (α : Type) where
  | empty
  | one (x : α)
  | many (xs : List α)
  deriving DecidableEq

namespace PackedSet

variable {α : Type}

instance : Inhabited (PackedSet α) := ⟨.empty⟩

/-- The set whose elements, in ascending order, are those of the list. -/
def pack : List α → PackedSet α
  | [] => .empty
  | [x] => .one x
  | x :: y :: rest => .many (x :: y :: rest)

/-- The elements in ascending order. -/
def toList : PackedSet α → List α
  | .empty => []
  | .one x => [x]
  | .many xs => xs

def size (s : PackedSet α) : Nat :=
  s.toList.length

def isEmpty : PackedSet α → Bool
  | .empty => true
  | _ => false

def singleton (x : α) : PackedSet α :=
  .one x

variable [Ord α]

/-- Places an element into an ascending list that may already hold it. -/
def place (x : α) : List α → List α
  | [] => [x]
  | y :: rest =>
    match compare x y with
    | .lt => x :: y :: rest
    | .eq => y :: rest
    | .gt => y :: place x rest

def contains (s : PackedSet α) (x : α) : Bool :=
  s.toList.any fun y => compare x y == .eq

def insert (s : PackedSet α) (x : α) : PackedSet α :=
  match s with
  | .empty => .one x
  | s => if s.contains x then s else pack (place x s.toList)

def ofList (xs : List α) : PackedSet α :=
  pack (xs.foldl (fun placed x => place x placed) [])

/-- A single element is inserted into the other set, and a first set that already holds
the second one is the union itself. -/
def union : PackedSet α → PackedSet α → PackedSet α
  | .empty, t => t
  | s, .empty => s
  | s, .one x => s.insert x
  | .one x, t => t.insert x
  | .many xs, .many ys =>
    if ys.all (PackedSet.many xs).contains then .many xs
    else pack (ys.foldl (fun placed x => place x placed) xs)

def without (s : PackedSet α) (x : α) : PackedSet α :=
  if s.contains x then
    match s with
    | .empty | .one _ => .empty
    | .many xs => pack (xs.filter fun y => compare x y != .eq)
  else s

omit [Ord α] in
def retain (s : PackedSet α) (keep : α → Bool) : PackedSet α :=
  pack (s.toList.filter keep)

omit [Ord α] in
/-- Visits each element once, in ascending order, with a state that the
predicate may change. -/
def sift {σ : Type} (keep : σ → α → Bool × σ) : σ → List α → List α × σ
  | state, [] => ([], state)
  | state, x :: rest =>
    let (kept, state) := keep state x
    let (others, state) := sift keep state rest
    (if kept then x :: others else others, state)

omit [Ord α] in
/-- The elements that a stateful predicate keeps, and its last state. -/
def retainWith {σ : Type} (s : PackedSet α) (keep : σ → α → Bool × σ) (state : σ) :
    PackedSet α × σ :=
  let (kept, state) := sift keep state s.toList
  (pack kept, state)

omit [Ord α] in
/-- The elements between braces, in ascending order. -/
def text (render : α → String) (s : PackedSet α) : String :=
  "\x7b" ++ ", ".intercalate (s.toList.map render) ++ "\x7d"

end PackedSet

end Attribution
