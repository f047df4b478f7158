import LinOpt.Job.Response
import LinOpt.Solver.Traced

namespace LinOpt.Job

variable {S C : Type} [Scalar S] [Scalar C]

/-- The solution in a response; a status text without a meaning is worth telling. -/
def Response.receive (r : Response) (m : Model S C) : Traced BuildError (Solution S Double) := do
  let solution ← Traced.of (r.toSolution m)
  Traced.tell (r.strayStatus?.toList.map .strayStatus)
  return solution

end LinOpt.Job
