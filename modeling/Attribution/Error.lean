import Attribution.Tree.Node
/-!
# Errors

What stops an evaluation. A cycle among units is no error, and a program that
breaks a rule is reported as a diagnostic instead.
-/

namespace Attribution

abbrev Phase := Nat

abbrev UnitId := Nat

inductive Error where
  | missingResolver (cell : String)
  | unfilled (cell unit : String)
  | typeMismatch (kind : String) (node : NodeId)
  | depthExceeded (unit : String) (limit : Nat)
  | phaseOrder (unit : String) (phase : Phase) (blocker : String) (blockerPhase : Phase)
  | unknownUnit (id : UnitId)
  | unknownNode (node : NodeId)
  | detached (unit : String)
  | workerPanicked (worker : String)
  deriving DecidableEq

namespace Error

def tag : Error → String
  | .missingResolver _ => "MissingResolver"
  | .unfilled _ _ => "Unfilled"
  | .typeMismatch _ _ => "AttributeTypeMismatch"
  | .depthExceeded _ _ => "DepthExceeded"
  | .phaseOrder _ _ _ _ => "PhaseOrder"
  | .unknownUnit _ => "UnknownUnit"
  | .unknownNode _ => "UnknownNode"
  | .detached _ => "Detached"
  | .workerPanicked _ => "WorkerPanicked"

def message : Error → String
  | .missingResolver cell => "cell `" ++ cell ++ "` has no resolver and no cached value"
  | .unfilled cell unit => "unit `" ++ unit ++ "` finished without filling cell `" ++ cell ++ "`"
  | .typeMismatch kind node =>
    "attribute `" ++ kind ++ "` on node #" ++ toString node ++
      " is stored with a different value type"
  | .depthExceeded unit limit =>
    "evaluation depth limit " ++ toString limit ++ " exceeded while entering unit `" ++ unit ++ "`"
  | .phaseOrder unit phase blocker blockerPhase =>
    "unit `" ++ unit ++ "` of phase " ++ toString phase ++ " depends on `" ++ blocker ++
      "` of earlier phase " ++ toString blockerPhase ++ " which is still on the stack"
  | .unknownUnit id => "unit u" ++ toString id ++ " is not registered with this scheduler"
  | .unknownNode node => "node #" ++ toString node ++ " does not exist in the tree"
  | .detached unit => "analysis was dropped while unit `" ++ unit ++ "` was still pending"
  | .workerPanicked worker => "worker `" ++ worker ++ "` panicked"

end Error

end Attribution
