import LinOpt.Double.Arithmetic
import LinOpt.Program.Basic

namespace LinOpt.Mps

inductive RowKind
  | free
  | less
  | greater
  | equal
deriving DecidableEq

/-- A row while it is being read. Right-hand side and range may come in any order; together with the
kind of the row they make its bounds at the end. -/
structure OpenRow where
  name : String
  kind : RowKind
  terms : List (Nat × Double) := []
  rhs : Double := .zero
  range : Option Double := none

namespace OpenRow

/-- A range widens a one-sided row by its size, and an equation to the side that its sign tells. -/
def bounds (r : OpenRow) : Double × Double :=
  match r.kind, r.range with
  | .free, _ => (.negInfinity, .infinity)
  | .less, none => (.negInfinity, r.rhs)
  | .greater, none => (r.rhs, .infinity)
  | .equal, none => (r.rhs, r.rhs)
  | .less, some x => (r.rhs - x.abs, r.rhs)
  | .greater, some x => (r.rhs, r.rhs + x.abs)
  | .equal, some x => if x.numLt .zero then (r.rhs + x, r.rhs) else (r.rhs, r.rhs + x)

def close (r : OpenRow) : Row := ⟨r.name, r.terms, r.bounds.1, r.bounds.2⟩

end OpenRow

end LinOpt.Mps
