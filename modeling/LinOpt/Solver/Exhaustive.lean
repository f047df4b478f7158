import LinOpt.Search.Basic
import LinOpt.Search.OfProgram
import LinOpt.Solver.Exchange
import LinOpt.Solver.Host

namespace LinOpt

def Search.Status.common : Search.Status → SolutionStatus
  | unknown => .unknownStatus
  | modelInvalid => .modelInvalid
  | feasible => .feasible
  | infeasible => .infeasible
  | optimal => .optimal

namespace ExhaustiveSolver

def name : String := "constraint programming"

def nativeStatus (s : Search.Status) : NativeStatus := ⟨"CP search", s.name, .ok s.common⟩

def valuesOf (vs : List (Variable Int64)) (ns : List Int) : Values Int64 Int64 :=
  OrderedMap.ofList (vs.zip (ns.map Int64.ofInt))

/-- What a search found, as an engine would report it. -/
def reportOf (o : Search.Outcome) : Option EngineReport :=
  o.solution.map fun ns =>
    ⟨ns.map Double.ofInt, o.objective.map Double.ofInt, o.bound.map Double.ofInt⟩

/-- With `optimize` the reports are the better and better assignments, without it all of them. They
are only made if somebody listens. -/
def solveReporting (h : Host) (m : Model Int64 Int64) (ps : Parameters) (listening : Bool)
    (optimize : Bool) :
    Traced SolveError (Solution Int64 Int64 × List (Values Int64 Int64)) := do
  if let some v := m.variables.find? (·.kind == .continuous) then
    throw (.unsupportedVariable v.name v.kind)
  let p ← m.program
  Mps.exportTo h.writable ps.exportPath p
  Traced.tell [.searching (ps.text .cpSat) listening]
  match Search.Problem.ofProgram p with
  | .error refusal =>
    Traced.tell [.refused refusal.message]
    return (← Solution.ofNative (nativeStatus .modelInvalid) none m.variables, [])
  | .ok problem =>
    let outcome := Search.Task.run { problem, optimize, clock := h.clock ps.timeLimitMs }
    let solution ←
      Solution.ofNative (nativeStatus outcome.status) (reportOf outcome) m.variables
    return (solution, if listening then outcome.reported.map (valuesOf m.variables) else [])

def solve (h : Host) (m : Model Int64 Int64) (ps : Parameters) :
    Traced SolveError (Solution Int64 Int64) := do
  return (← solveReporting h m ps false true).1

end ExhaustiveSolver

end LinOpt
