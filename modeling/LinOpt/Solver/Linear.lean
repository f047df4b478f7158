import LinOpt.Solver.Exchange
import LinOpt.Solver.Host

namespace LinOpt

inductive LinearSolver
  | requested (choice : EngineChoice)
  | fixed (engine : Engine)

namespace LinearSolver

variable {S C : Type} [Scalar S] [Scalar C]

def name : LinearSolver → String
  | requested _ => "linear program solver"
  | fixed engine => engine.name

def resolve (h : Host) : LinearSolver → Traced SolveError (Engine × Bool)
  | requested choice => h.resolve choice
  | fixed engine => return (engine, false)

def run (h : Host) (s : LinearSolver) (p : Program) (vs : List (Variable S)) (ps : Parameters) :
    Traced SolveError (Solution S Double) := do
  Mps.exportTo h.writable ps.exportPath p
  let (engine, switched) ← s.resolve h
  Traced.tell [.solving engine.name engine.kind p.columns.length p.rows.length]
  let answer ← Traced.of (engine.solve p ps)
  let solution ← Traced.of (Solution.ofAnswer answer vs)
  return { solution with switched }

def solve (h : Host) (s : LinearSolver) (m : Model S C) (ps : Parameters) :
    Traced SolveError (Solution S Double) := do
  s.run h (← m.program) m.variables ps

def variableOf (c : Column) : Except BuildError (Variable Double) := do
  return ⟨c.name, ← Interval.new c.lower c.upper, c.kind⟩

def solveText (h : Host) (s : LinearSolver) (text : String) (ps : Parameters) :
    Traced SolveError (Solution Double Double) := do
  let p ← Traced.of ((Mps.read text).mapError .mps)
  let vs ← Traced.of ((p.columns.mapM variableOf).mapError .model)
  s.run h p vs ps

end LinearSolver

end LinOpt
