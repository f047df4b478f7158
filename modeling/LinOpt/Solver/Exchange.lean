import LinOpt.Mps.Reader
import LinOpt.Mps.Writer
import LinOpt.Program.OfModel
import LinOpt.Solver.Error
import LinOpt.Solver.Traced

namespace LinOpt

variable {S C : Type} [Scalar S] [Scalar C]

/-- The linear program of a model. Rows that had to change their name are told, also if the model
then turns out to mention a foreign variable. -/
def Model.program (m : Model S C) : Traced SolveError Program := do
  Traced.tell ((RowNames.renamed (m.constraints.map (·.name))).map fun r => .renamedRow r.1 r.2)
  match Program.ofModel m with
  | .error v => throw (.foreignVariable v.name)
  | .ok p =>
    Traced.tell [.flattened p.columns.length p.rows.length]
    return p

namespace Mps

def textOf (p : Program) : Except SolveError String := (write p).mapError .mps

def ofModel (m : Model S C) : Traced SolveError String := do Traced.of (textOf (← m.program))

def save (writable : String → Bool) (path text : String) : Traced SolveError Unit := do
  if writable path then
    Traced.store path text
    Traced.tell [.exported path]
  else throw (.unwritable path)

def load (files : List (String × String)) (path : String) : Except SolveError String :=
  match files.lookup path with
  | some text => .ok text
  | none => .error (.unreadable path)

def exportTo (writable : String → Bool) (path : Option String) (p : Program) :
    Traced SolveError Unit := do
  match path with
  | none => return ()
  | some path => save writable path (← Traced.of (textOf p))

end Mps

end LinOpt
