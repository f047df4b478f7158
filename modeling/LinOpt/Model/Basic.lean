import LinOpt.Model.LinearSum

namespace LinOpt

structure Constraint (S C : Type) where
  sum : LinearSum S C
  interval : Interval C
  name : Option String := none

structure Objective (S C : Type) where
  sum : LinearSum S C
  maximize : Bool := true
  offset : Option C := none

structure Draft (S C : Type) where
  «variables» : List (Variable S) := []
  constraints : List (Constraint S C) := []

structure Model (S C : Type) where
  «variables» : List (Variable S)
  constraints : List (Constraint S C)
  objective : Objective S C

variable {S C : Type} [Scalar S] [Scalar C]

def sameOption {α : Type} (eq : α → α → Bool) : Option α → Option α → Bool
  | none, none => true
  | some a, some b => eq a b
  | _, _ => false

namespace Constraint

def same (c d : Constraint S C) : Bool :=
  c.sum.same d.sum && c.interval.compare d.interval == .eq && c.name == d.name

def text (c : Constraint S C) : String :=
  let label := match c.name with
    | some name => name ++ ": "
    | none => ""
  label ++ Scalar.text c.interval.lower ++ " <= " ++ c.sum.text ++ " <= " ++
    Scalar.text c.interval.upper

end Constraint

namespace Objective

def same (o p : Objective S C) : Bool :=
  o.sum.same p.sum && o.maximize == p.maximize && sameOption Scalar.same o.offset p.offset

def text (o : Objective S C) : String :=
  let sense := if o.maximize then "max " else "min "
  match o.offset with
  | some offset => sense ++ Scalar.text offset ++ " + " ++ o.sum.text
  | none => sense ++ o.sum.text

end Objective

namespace Draft

def declare (d : Draft S C) (kind : VariableKind) (interval : Interval S) (name : String) :
    Except BuildError (Variable S × Draft S C) :=
  if d.variables.any (·.name == name) then .error (.nameTaken name)
  else
    let v := ⟨name, interval, kind⟩
    .ok (v, { d with «variables» := d.variables ++ [v] })

def declareContinuous (d : Draft S C) := d.declare .continuous

def declareInteger (d : Draft S C) := d.declare .integer

def declareBinary (d : Draft S C) := d.declare .binary .binary

def addConstraints (d : Draft S C) (cs : List (Constraint S C)) : Draft S C :=
  { d with constraints := d.constraints ++ cs }

/-- Constraints may mention any variable here; a foreign one is refused when the model is solved. -/
def addConstraint (d : Draft S C) (c : Constraint S C) : Draft S C := d.addConstraints [c]

def complete (d : Draft S C) (o : Objective S C) : Model S C :=
  ⟨d.variables, d.constraints, o⟩

end Draft

namespace Model

def byName? (m : Model S C) (name : String) : Option (Variable S) :=
  m.variables.find? (·.name == name)

def integralCount (m : Model S C) : Nat := m.variables.countP (·.kind.isIntegral)

def isMixedInteger (m : Model S C) : Bool := decide (0 < m.integralCount)

def same (m n : Model S C) : Bool :=
  m.variables.isEqv n.variables Variable.same &&
    m.constraints.isEqv n.constraints Constraint.same && m.objective.same n.objective

def text (m : Model S C) : String :=
  "Variables:\n" ++ String.join (m.variables.map fun v => " " ++ v.text ++ "\n") ++
    "Constraints:\n" ++ String.join (m.constraints.map fun c => " " ++ c.text ++ "\n") ++
    "Objective function:\n " ++ m.objective.text

end Model

end LinOpt
