import LinOpt.Double.Arithmetic
import LinOpt.Solution.Basic
import LinOpt.Solver.Error
import LinOpt.Solver.Traced

namespace LinOpt

structure EngineReport where
  values : List Double
  objective : Option Double
  bound : Option Double

structure EngineAnswer where
  status : SolutionStatus
  report : Option EngineReport

/-- The distance between bound and objective in units of the objective; infinite if the objective
alone is zero. -/
def relativeDistance (objective bound : Double) : Double :=
  if objective == .zero && bound == .zero then .zero
  else if objective == .zero then .infinity
  else (bound - objective).abs / objective.abs

variable {S V : Type} [Scalar S] [Scalar V]

def notSolvedReason : String := "Mathematical program could not be solved."

def Solution.ofAnswer (a : EngineAnswer) (vs : List (Variable S)) :
    Except SolveError (Solution S V) :=
  if !a.status.hasSolution then .ok (.unsolved a.status)
  else
    match a.report with
    | some ⟨values, some objective, bound⟩ =>
      .ok (.solved a.status (OrderedMap.ofList (vs.zip (values.map Scalar.ofDouble))) objective
        (bound.map (relativeDistance objective)))
    | _ => .error (.notSolved notSolvedReason)

structure NativeStatus where
  engine : String
  name : String
  /-- The common status, or how the engine's own one is called if it has none. -/
  common : Except String SolutionStatus

def NativeStatus.toCommon (n : NativeStatus) : Traced SolveError SolutionStatus := do
  match n.common with
  | .ok status =>
    Traced.tell [.mappedStatus n.engine n.name status]
    return status
  | .error status =>
    Traced.tell [.unmappedStatus n.engine status]
    throw (.unmappedStatus n.engine status)

def Solution.ofNative (n : NativeStatus) (report : Option EngineReport) (vs : List (Variable S)) :
    Traced SolveError (Solution S V) := do
  Traced.of (Solution.ofAnswer ⟨← n.toCommon, report⟩ vs)

end LinOpt
