import Attribution.PackedSet
import Attribution.Text.Quoted
/-!
# Jump labels and exception types

The elements of the two kinds of sets an analysis computes. An unlabeled jump
comes before every labeled one; labels and exception types are ordered as text.
-/

namespace Attribution

/-- What a `break` or `continue` names as its target. -/
inductive JumpLabel where
  | unlabeled
  | named (label : String)
  deriving DecidableEq

namespace JumpLabel

protected def compare : JumpLabel → JumpLabel → Ordering
  | .unlabeled, .unlabeled => .eq
  | .unlabeled, .named _ => .lt
  | .named _, .unlabeled => .gt
  | .named a, .named b => compare a b

instance : Ord JumpLabel := ⟨JumpLabel.compare⟩

def ofLabel : Option String → JumpLabel
  | none => .unlabeled
  | some label => .named label

def toLabel : JumpLabel → Option String
  | .unlabeled => none
  | .named label => some label

def text : JumpLabel → String
  | .unlabeled => "Unlabeled"
  | .named label => "Named(" ++ Text.literal label ++ ")"

end JumpLabel

structure ExcType where
  name : String
  deriving DecidableEq

instance : Ord ExcType := ⟨fun a b => compare a.name b.name⟩

abbrev LabelSet := PackedSet JumpLabel

abbrev TypeSet := PackedSet ExcType

def TypeSet.text (s : TypeSet) : String :=
  PackedSet.text ExcType.name s

end Attribution
