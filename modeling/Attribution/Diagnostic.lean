/-!
# Diagnostics

What an analysis tells its user about a program: a kind, a message and the
place it concerns.
-/

namespace Attribution

structure Location where
  line : Nat
  column : Nat
  deriving DecidableEq, Repr

namespace Location

def text (l : Location) : String :=
  toString l.line ++ ":" ++ toString l.column

end Location

inductive DiagnosticKind where
  | unreachableStatement
  | invalidJump
  | cyclicDefinition
  | ruleViolation
  deriving DecidableEq, Repr

namespace DiagnosticKind

def name : DiagnosticKind → String
  | .unreachableStatement => "unreachable-statement"
  | .invalidJump => "invalid-jump"
  | .cyclicDefinition => "cyclic-definition"
  | .ruleViolation => "rule-violation"

end DiagnosticKind

structure Diagnostic where
  kind : DiagnosticKind
  message : String
  location : Location
  deriving DecidableEq

namespace Diagnostic

def text (d : Diagnostic) : String :=
  d.location.text ++ ": [" ++ d.kind.name ++ "] " ++ d.message

end Diagnostic

end Attribution
