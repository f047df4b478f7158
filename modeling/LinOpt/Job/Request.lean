import LinOpt.Job.Basic
import LinOpt.Model.Basic

namespace LinOpt.Job

variable {S C : Type} [Scalar S] [Scalar C]

def finite? (x : Double) : Option Double := if x.isFinite then some x else none

def termsOf (s : LinearSum S C) : List Term :=
  s.terms.entries.map fun t => ⟨Scalar.toDouble t.2, t.1.name⟩

def Request.ofModel (m : Model S C) : Request where
  «variables» := m.variables.map fun v =>
    ⟨v.name, finite? (Scalar.toBound v.interval.lower), finite? (Scalar.toBound v.interval.upper)⟩
  constraints := m.constraints.map fun c =>
    ⟨termsOf c.sum, finite? (Scalar.toBound c.interval.lower),
      finite? (Scalar.toBound c.interval.upper)⟩
  objective :=
    ⟨termsOf m.objective.sum, m.objective.maximize, m.objective.offset.map Scalar.toDouble⟩

def intervalOf (lower upper : Option Double) : Except BuildError (Interval Double) :=
  Interval.new (lower.getD .negInfinity) (upper.getD .infinity)

def addVariable (d : Draft Double Double) (v : VariableEntry) :
    Except BuildError (Draft Double Double) := do
  return (← d.declare .integer (← intervalOf v.lower v.upper) v.name).2

def sumOf (vs : List (Variable Double)) (ts : List Term) :
    Except BuildError (LinearSum Double Double) := do
  let terms ← ts.mapM fun t =>
    match vs.find? (·.name == t.variableName) with
    | some v => .ok (v, t.coefficient)
    | none => .error (.unknownVariable t.variableName)
  return LinearSum.ofTerms terms

def addConstraint (d : Draft Double Double) (c : ConstraintEntry) :
    Except BuildError (Draft Double Double) := do
  let interval ← intervalOf c.lower c.upper
  return d.addConstraint { sum := ← sumOf d.variables c.terms, interval }

def Request.toModel (r : Request) : Except BuildError (Model Double Double) := do
  let d ← r.variables.foldlM addVariable {}
  let d ← r.constraints.foldlM addConstraint d
  return d.complete {
    sum := ← sumOf d.variables r.objective.terms
    maximize := r.objective.maximize
    offset := r.objective.offset }

end LinOpt.Job
