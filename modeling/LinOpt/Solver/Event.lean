import LinOpt.Engine.Kind
import LinOpt.Solution.Status

namespace LinOpt

inductive Severity
  | error
  | warn
  | info
  | debug
deriving DecidableEq

def Severity.name : Severity → String
  | error => "ERROR"
  | warn => "WARN"
  | info => "INFO"
  | debug => "DEBUG"

inductive Event
  | renamedRow (name renamed : String)
  | flattened (vars constraints : Nat)
  | exported (path : String)
  | solving (engine : String) (kind : EngineKind) (vars constraints : Nat)
  | substituted (expected fallback : EngineChoice)
  | searching (parameters : String) (enumerate : Bool)
  | refused (reason : String)
  | mappedStatus (engine native : String) (status : SolutionStatus)
  | unmappedStatus (engine status : String)
  | strayStatus (status : String)
deriving DecidableEq

namespace Event

def severity : Event → Severity
  | unmappedStatus .. => .error
  | substituted .. | strayStatus .. => .warn
  | exported .. | solving .. | refused .. => .info
  | renamedRow .. | flattened .. | searching .. | mappedStatus .. => .debug

def message : Event → String
  | renamedRow .. => "renamed clashing constraint"
  | flattened .. => "flattened model"
  | exported .. => "exported model"
  | solving .. => "solving model"
  | substituted .. => "requested solver unavailable, switching to default solver"
  | searching .. => "constraint programming parameters"
  | refused .. => "model rejected by the constraint programming engine"
  | mappedStatus .. => "mapped solver status"
  | unmappedStatus .. => "unmapped solver status"
  | strayStatus .. => "unrecognized status in solution response"

def fields : Event → List (String × String)
  | renamedRow name renamed => [("name", name), ("renamed", renamed)]
  | flattened vars constraints =>
    [("variables", toString vars), ("constraints", toString constraints)]
  | exported path => [("path", path)]
  | solving engine kind vars constraints =>
    [("engine", engine), ("family", kind.name), ("variables", toString vars),
      ("constraints", toString constraints)]
  | substituted expected actual => [("expected", expected.name), ("fallback", actual.name)]
  | searching parameters enumerate =>
    [("parameters", parameters), ("enumerate", toString enumerate)]
  | refused reason => [("reason", reason)]
  | mappedStatus engine native status =>
    [("engine", engine), ("native", native), ("status", status.name)]
  | unmappedStatus engine status => [("engine", engine), ("status", status)]
  | strayStatus status => [("error", SolutionStatus.unknownName status)]

end Event

end LinOpt
