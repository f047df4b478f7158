import LinOpt.Search.Problem

namespace LinOpt.Search

structure Reach where
  low : Int
  high : Int
deriving DecidableEq

def reach : List Int → List Domain → Reach
  | c :: cs, d :: ds =>
    let r := reach cs ds
    ⟨r.low + min (c * d.lower) (c * d.upper), r.high + max (c * d.lower) (c * d.upper)⟩
  | _, _ => ⟨0, 0⟩

def LinearRow.allows (row : LinearRow) (activity : Int) (r : Reach) : Bool :=
  row.lower.all (fun l => decide (l ≤ activity + r.high)) &&
    row.upper.all (fun u => decide (activity + r.low ≤ u))

def allowed : List LinearRow → List Int → List Reach → Bool
  | row :: rows, a :: as, r :: rs => row.allows a r && allowed rows as rs
  | _, _, _ => true

/-- What the search knows about one variable: its domain, its coefficient in each row and in the
objective, and how far the rows and the objective get with the variables after it. -/
structure Level where
  domain : Domain
  column : List Int
  cost : Int
  rowReach : List Reach
  costReach : Reach

def levels : List Domain → List (List Int) → List Int → List Level
  | [], _, _ => []
  | d :: ds, rows, costs =>
    { domain := d
      column := rows.map (·.headD 0)
      cost := costs.headD 0
      rowReach := rows.map fun r => reach r.tail ds
      costReach := reach costs.tail ds } :: levels ds (rows.map List.tail) costs.tail

def Problem.levels (p : Problem) : List Level :=
  Search.levels p.domains (p.rows.map (·.coefficients)) p.objective

def Problem.rowReach (p : Problem) : List Reach :=
  p.rows.map fun r => reach r.coefficients p.domains

def Problem.costReach (p : Problem) : Reach := reach p.objective p.domains

end LinOpt.Search
