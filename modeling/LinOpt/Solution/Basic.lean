import LinOpt.Model.OrderedMap
import LinOpt.Model.Variable
import LinOpt.Solution.Status

namespace LinOpt

abbrev Values (S V : Type) := OrderedMap (Variable S) V

structure Solution (S V : Type) where
  status : SolutionStatus
  values : Values S V := {}
  objective : Option Double := none
  isFeasible : Bool := false
  isOptimal : Bool := false
  gap : Option Double := none
  /-- The engine that was asked for was not there, and the default one ran. -/
  switched : Bool := false

variable {S V : Type} [Scalar S] [Scalar V]

def Values.byName? (vs : Values S V) (name : String) : Option V :=
  (vs.entries.find? fun e => e.1.name == name).map (·.2)

namespace Solution

def solved (status : SolutionStatus) (values : Values S V) (objective : Double)
    (gap : Option Double) : Solution S V :=
  { status, values, gap
    objective := some objective
    isFeasible := true
    isOptimal := status == .optimal }

def unsolved (status : SolutionStatus) : Solution S V := { status }

def numberText (x : Option Double) : String := (x.map Double.text).getD "-"

def valueText (e : Variable S × V) : String := e.1.name ++ "=" ++ Scalar.text e.2

def text (s : Solution S V) : String :=
  s!"Status: {s.status.name}, ObjectiveValue: {numberText s.objective}, " ++
    s!"IsFeasible: {s.isFeasible}, IsOptimal: {s.isOptimal}, " ++
    s!"OptimalityGap: {numberText s.gap}" ++
    (if s.switched then ", SwitchedToDefaultSolver: true" else "") ++
    (if s.values.isEmpty then ""
      else "\nVariable Values: " ++ ", ".intercalate (s.values.entries.map valueText))

end Solution

end LinOpt
