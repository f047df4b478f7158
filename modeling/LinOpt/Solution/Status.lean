import LinOpt.Text.Blank

namespace LinOpt

inductive SolutionStatus
  | optimal
  | feasible
  | infeasible
  | unbounded
  | abnormal
  | notSolved
  | modelIsValid
  | cancelledByUser
  | unknownStatus
  | modelInvalid
  | invalidSolverParameters
  | solverTypeUnavailable
  | incompatibleOptions
  | infOrUnbound
  | timelimit
deriving DecidableEq

namespace SolutionStatus

def all : List SolutionStatus :=
  [optimal, feasible, infeasible, unbounded, abnormal, notSolved, modelIsValid, cancelledByUser,
    unknownStatus, modelInvalid, invalidSolverParameters, solverTypeUnavailable,
    incompatibleOptions, infOrUnbound, timelimit]

def name : SolutionStatus → String
  | optimal => "Optimal"
  | feasible => "Feasible"
  | infeasible => "Infeasible"
  | unbounded => "Unbounded"
  | abnormal => "Abnormal"
  | notSolved => "NotSolved"
  | modelIsValid => "ModelIsValid"
  | cancelledByUser => "CancelledByUser"
  | unknownStatus => "UnknownStatus"
  | modelInvalid => "ModelInvalid"
  | invalidSolverParameters => "InvalidSolverParameters"
  | solverTypeUnavailable => "SolverTypeUnavailable"
  | incompatibleOptions => "IncompatibleOptions"
  | infOrUnbound => "InfOrUnbound"
  | timelimit => "Timelimit"

def hasSolution : SolutionStatus → Bool
  | optimal | feasible => true
  | _ => false

def ofName? (s : String) : Option SolutionStatus :=
  all.find? fun st => Text.upper st.name == Text.upper s

def unknownName (s : String) : String := s!"unknown solver result status '{s}'"

end SolutionStatus

end LinOpt
