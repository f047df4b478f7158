import LinOpt.Job.Basic
import LinOpt.Model.Basic
import LinOpt.Solution.Basic

namespace LinOpt.Job

variable {S C V : Type} [Scalar S] [Scalar C] [Scalar V]

def Response.ofSolution (s : Solution S V) (m : Model S C) : Response where
  isFeasible := s.isFeasible
  gap := s.gap
  objective := s.objective
  isOptimal := s.isOptimal
  status := some s.status.name
  values := OrderedMap.ofList <| m.variables.map fun v =>
    (v.name, (s.values.get? v).map Scalar.toDouble)

def valueIn (m : Model S C) (e : String × Option Double) :
    Except BuildError (Variable S × Double) :=
  match m.byName? e.1 with
  | some v => .ok (v, e.2.getD .nan)
  | none => .error (.unknownVariable e.1)

def Response.resultStatus (r : Response) : SolutionStatus :=
  (r.status.bind SolutionStatus.ofName?).getD .unknownStatus

def Response.strayStatus? (r : Response) : Option String :=
  r.status.filter fun s => (SolutionStatus.ofName? s).isNone

/-- A missing gap is the largest number. -/
def Response.toSolution (r : Response) (m : Model S C) : Except BuildError (Solution S Double) := do
  let values ← r.values.entries.mapM (valueIn m)
  return {
    status := r.resultStatus
    values := OrderedMap.ofList values
    objective := r.objective
    isFeasible := r.isFeasible
    isOptimal := r.isOptimal
    gap := some (r.gap.getD .largest) }

end LinOpt.Job
