import LinOpt.Search.Basic
import LinOpt.Search.OfProgram

namespace LinOpt.Search

/-- Which results are in range: signed values, and what is formed for each row and for the
objective. -/
structure Ranges where
  value : Int → Bool
  rows : List (Int → Bool)
  objective : Int → Bool

/-- The ranges of an accepted problem. Every result is an integer of 128 bits, and those of a row or
of the objective do not exceed the size with which it was accepted. -/
def Problem.ranges (p : Problem) : Ranges where
  value := fits
  rows := p.rows.map fun row n =>
    fits n && decide (n.natAbs ≤ sizeBound row.coefficients p.domains)
  objective n :=
    fits n && decide (n.natAbs ≤ p.offset.natAbs + sizeBound p.objective p.domains)

def reachIn (ok : Int → Bool) : List Int → List Domain → Option Reach
  | c :: cs, d :: ds => do
    let r ← reachIn ok cs ds
    let a ← Option.guard ok (c * d.lower)
    let b ← Option.guard ok (c * d.upper)
    return ⟨← Option.guard ok (r.low + min a b), ← Option.guard ok (r.high + max a b)⟩
  | _, _ => some ⟨0, 0⟩

def dotIn (ok : Int → Bool) : Int → List Int → List Int → Option Int
  | sum, c :: cs, v :: vs => do
    let product ← Option.guard ok (c * v)
    dotIn ok (← Option.guard ok (sum + product)) cs vs
  | sum, _, _ => some sum

def Problem.objectiveValueIn (p : Problem) (ok : Int → Bool) (values : List Int) : Option Int := do
  let sum ← dotIn ok 0 p.objective values
  Option.guard ok (sum + p.offset)

def reachesIn : List (Int → Bool) → List (List Int) → List Domain → Option (List Reach)
  | ok :: oks, cs :: rows, ds => do
    let r ← reachIn ok cs ds
    return r :: (← reachesIn oks rows ds)
  | _, _, _ => some []

def levelsIn (r : Ranges) : List Domain → List (List Int) → List Int → Option (List Level)
  | [], _, _ => some []
  | d :: ds, rows, costs => do
    let rowReach ← reachesIn r.rows (rows.map List.tail) ds
    let costReach ← reachIn r.objective costs.tail ds
    return ⟨d, rows.map (·.headD 0), costs.headD 0, rowReach, costReach⟩ ::
      (← levelsIn r ds (rows.map List.tail) costs.tail)

/-- A sum is only formed if there is a bound to compare it with. -/
def respectsIn (ok : Int → Bool) (test : Int → Int → Bool) (sum : Int) : Option Int → Option Bool
  | none => some true
  | some bound => (Option.guard ok sum).map (test bound)

def LinearRow.allowsIn (row : LinearRow) (ok : Int → Bool) (activity : Int) (r : Reach) :
    Option Bool := do
  if ← respectsIn ok (fun l n => decide (l ≤ n)) (activity + r.high) row.lower then
    respectsIn ok (fun u n => decide (n ≤ u)) (activity + r.low) row.upper
  else return false

def allowedIn : List (Int → Bool) → List LinearRow → List Int → List Reach → Option Bool
  | ok :: oks, row :: rows, a :: as, r :: rs => do
    if ← row.allowsIn ok a r then allowedIn oks rows as rs else return false
  | _, _, _, _ => some true

namespace Task

variable (t : Task) (r : Ranges)

def mayImproveIn (s : State) (reach : Reach) : Option Bool :=
  match t.optimize, s.incumbent with
  | true, some (_, best) => do
    let sum ← Option.guard r.objective
      (s.cost + if t.problem.maximize then reach.high else reach.low)
    let total ← Option.guard r.objective (sum + t.problem.offset)
    return if t.problem.maximize then decide (best < total) else decide (total < best)
  | _, _ => some true

def promisingIn (l : Level) (s : State) : Option Bool := do
  if ← allowedIn r.rows t.problem.rows s.activity l.rowReach then t.mayImproveIn r s l.costReach
  else return false

def addColumnIn (v : Int) : List (Int → Bool) → List Int → List Int → Option (List Int)
  | ok :: oks, a :: as, c :: cs => do
    let product ← Option.guard ok (c * v)
    let sum ← Option.guard ok (a + product)
    return sum :: (← addColumnIn v oks as cs)
  | _, _, _ => some []

/-- Choosing has the sign one, taking back the sign minus one. -/
def assignIn (l : Level) (v sign : Int) (s : State) : Option State := do
  let signed ← Option.guard r.value (v * sign)
  let activity ← addColumnIn signed r.rows s.activity l.column
  let product ← Option.guard r.objective (l.cost * signed)
  let cost ← Option.guard r.objective (s.cost + product)
  return { s with activity, cost }

def chooseIn (l : Level) (v : Int) (s : State) : Option State :=
  (assignIn r l v 1 s).map fun s => { s with chosen := v :: s.chosen }

def takeBackIn (l : Level) (v : Int) (s : State) : Option State :=
  (assignIn r l v (-1) s).map fun s => { s with chosen := s.chosen.tail }

def recordIn (s : State) : Option State := do
  let values := s.chosen.reverse
  let objective ← t.problem.objectiveValueIn r.objective values
  return { s with incumbent := some (values, objective), reported := values :: s.reported }

def tryValuesIn (f : Int → State → Option State) (v : Int) : Nat → State → Option State
  | 0, s => some s
  | n + 1, s => do
    let s ← f v s
    if s.stopped then return s else tryValuesIn f (v + 1) n s

def exploreIn : List Level → State → Option State
  | [], s =>
    let s := t.visit s
    if s.stopped then some s else t.recordIn r s
  | l :: ls, s =>
    let s := t.visit s
    if s.stopped then some s
    else
      tryValuesIn (fun v s => do
        let s ← chooseIn r l v s
        let s ← if ← t.promisingIn r l s then exploreIn ls s else some s
        takeBackIn r l v s)
        l.domain.lower l.domain.size s

def finalIn (rowReach : List Reach) (levels : List Level) : Option State := do
  if ← allowedIn r.rows t.problem.rows t.start.activity rowReach then t.exploreIn r levels t.start
  else return t.start

/-- A search in which some result is out of range has no outcome. -/
def runIn : Option Outcome := do
  let p := t.problem
  let rowReach ← reachesIn r.rows (p.rows.map (·.coefficients)) p.domains
  let costReach ← reachIn r.objective p.objective p.domains
  let levels ← levelsIn r p.domains (p.rows.map (·.coefficients)) p.objective
  let s ← t.finalIn r rowReach levels
  let rootBound ← Option.guard r.objective
    ((if p.maximize then costReach.high else costReach.low) + p.offset)
  let objective := s.incumbent.map fun i => if t.optimize then i.2 else 0
  return {
    status := status s.stopped s.incumbent.isSome
    solution := s.incumbent.map (·.1)
    objective
    bound := objective.map fun o => if t.optimize && s.stopped then rootBound else o
    reported := s.reported.reverse }

end Task

end LinOpt.Search
