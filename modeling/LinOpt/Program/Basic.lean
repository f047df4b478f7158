import LinOpt.Double.Arithmetic
import LinOpt.Model.Variable

namespace LinOpt

structure Column where
  name : String
  lower : Double
  upper : Double
  kind : VariableKind
deriving BEq

/-- Each term is a column number with its coefficient. -/
structure Row where
  name : String
  terms : List (Nat × Double)
  lower : Double
  upper : Double
deriving BEq

structure Program where
  name : String
  columns : List Column
  rows : List Row
  objective : List (Nat × Double)
  offset : Double
  maximize : Bool
deriving BEq

namespace Program

/-- The objective coefficients given for a column, added up in order. -/
def cost (p : Program) (column : Nat) : Double :=
  (p.objective.filter (·.1 == column)).foldl (fun s t => s + t.2) .zero

def costs (p : Program) : List Double := (List.range p.columns.length).map p.cost

/-- The objective at a point. The sum starts from negative zero, the neutral element of addition. -/
def valueAt (p : Program) (values : List Double) : Double :=
  p.objective.foldl (fun s t => s + t.2 * values.getD t.1 .zero) (-.zero) + p.offset

def hasIntegralColumns (p : Program) : Bool := p.columns.any (·.kind.isIntegral)

end Program

end LinOpt
