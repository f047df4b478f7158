namespace LinOpt

inductive BuildError
  | inadmissibleBounds (lower upper : String)
  | nameTaken (name : String)
  | weightCount (vars weights : Nat)
  | unknownVariable (name : String)
deriving DecidableEq

def BuildError.message : BuildError → String
  | .inadmissibleBounds lower upper =>
    s!"Lower bound {lower} is larger than upper bound {upper}"
  | .nameTaken name => s!"Variable with same name already exists: {name}"
  | .weightCount vars weights =>
    "Number of weights must match number of variables. " ++
      s!"Weights: {weights}, Variables: {vars}"
  | .unknownVariable name => s!"Unknown variable referenced: {name}"

end LinOpt
