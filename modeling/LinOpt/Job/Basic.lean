import LinOpt.Json.Decode
import LinOpt.Model.OrderedMap

namespace LinOpt.Job

/-- An absent bound is an open side. -/
structure VariableEntry where
  name : String
  lower : Option Double := none
  upper : Option Double := none
deriving BEq

structure Term where
  coefficient : Double
  variableName : String
deriving BEq

structure ConstraintEntry where
  terms : List Term
  lower : Option Double := none
  upper : Option Double := none
deriving BEq

structure ObjectiveEntry where
  terms : List Term
  maximize : Bool
  offset : Option Double := none
deriving BEq

structure Request where
  «variables» : List VariableEntry
  constraints : List ConstraintEntry
  objective : ObjectiveEntry
deriving BEq

structure Response where
  isFeasible : Bool
  gap : Option Double := none
  objective : Option Double := none
  isOptimal : Bool
  status : Option String := none
  values : OrderedMap String (Option Double) := {}

end LinOpt.Job
