import LinOpt.Model.Basic
import LinOpt.Program.Basic
import LinOpt.Program.RowNames

namespace LinOpt.Program

variable {S C : Type} [Scalar S] [Scalar C]

def columnOf (v : Variable S) : Column :=
  ⟨v.name, Scalar.toBound v.interval.lower, Scalar.toBound v.interval.upper, v.kind⟩

/-- A variable that the model does not own has no column, and is then the answer. -/
def index (vs : List (Variable S)) (v : Variable S) : Except (Variable S) Nat :=
  match vs.findIdx? v.same with
  | some i => .ok i
  | none => .error v

def termsOf (vs : List (Variable S)) (s : LinearSum S C) :
    Except (Variable S) (List (Nat × Double)) :=
  s.terms.entries.mapM fun t => (index vs t.1).map fun i => (i, Scalar.toDouble t.2)

def rowOf (vs : List (Variable S)) (c : Constraint S C) (name : String) :
    Except (Variable S) Row :=
  (termsOf vs c.sum).map fun ts =>
    ⟨name, ts, Scalar.toBound c.interval.lower, Scalar.toBound c.interval.upper⟩

def ofModel (m : Model S C) : Except (Variable S) Program := do
  let names := RowNames.unique (m.constraints.map (·.name))
  let rows ← (m.constraints.zip names).mapM fun c => rowOf m.variables c.1 c.2
  let objective ← termsOf m.variables m.objective.sum
  return {
    name := "model"
    columns := m.variables.map columnOf
    rows, objective
    offset := (m.objective.offset.map Scalar.toDouble).getD .zero
    maximize := m.objective.maximize }

end LinOpt.Program
