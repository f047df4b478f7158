import LinOpt.Engine.Kind
import LinOpt.Model.Error
import LinOpt.Model.Variable
import LinOpt.Mps.Error

namespace LinOpt

inductive SolveError
  | noEngine (expected fallback : EngineChoice)
  | notSolved (reason : String)
  | unmappedStatus (engine status : String)
  | unsupportedVariable (name : String) (kind : VariableKind)
  | foreignVariable (name : String)
  | model (cause : BuildError)
  | mps (cause : Mps.Error)
  | unreadable (path : String)
  | unwritable (path : String)
deriving DecidableEq

def SolveError.message : SolveError → String
  | noEngine expected fallback =>
    s!"Neither the expected solver {expected.name} nor " ++
      s!"fallback solver {fallback.name} could be initialized."
  | notSolved reason => s!"Error in solver: {reason}"
  | unmappedStatus engine status => s!"Unknown result status in solver {engine}: {status}"
  | unsupportedVariable name kind =>
    s!"Variable {name} of kind {kind.name} is not supported by this solver"
  | foreignVariable name => s!"Variable {name} is not part of the model"
  | model cause => s!"Invalid model: {cause.message}"
  | mps cause => s!"Invalid MPS model: {cause.message}"
  | unreadable path => s!"Could not read model from {path}"
  | unwritable path => s!"Could not export model to {path}"

end LinOpt
