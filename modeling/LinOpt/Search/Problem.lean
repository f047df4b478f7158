namespace LinOpt.Search

/-- The integers from `lower` to `upper`, none if these cross. -/
structure Domain where
  lower : Int
  upper : Int
deriving DecidableEq

def Domain.size (d : Domain) : Nat := (d.upper - d.lower + 1).toNat

/-- A sum over all variables, with the bounds it has to respect. -/
structure LinearRow where
  coefficients : List Int
  lower : Option Int
  upper : Option Int
deriving DecidableEq

structure Problem where
  domains : List Domain
  rows : List LinearRow
  objective : List Int
  offset : Int
  maximize : Bool
deriving DecidableEq

def dot : List Int → List Int → Int
  | c :: cs, v :: vs => c * v + dot cs vs
  | _, _ => 0

def Problem.objectiveValue (p : Problem) (values : List Int) : Int :=
  dot p.objective values + p.offset

end LinOpt.Search
