import LinOpt.Solver.Exhaustive
import LinOpt.Solver.Linear

namespace LinOpt.Showcase

/-- What a run prints, and the error that ends it if there is one. -/
structure Transcript where
  text : String
  failure : Option String := none
  events : List Event := []

structure Output where
  text : String := ""
  events : List Event := []

/-- A run of a showcase. What is printed and told before an error stays. -/
abbrev Script := ExceptT String (StateM Output)

namespace Script

variable {α : Type}

def line (text : String) : Script Unit := modify fun o => { o with text := o.text ++ text ++ "\n" }

def model (x : Except BuildError α) : Script α := liftExcept (x.mapError (·.message))

def call (x : Traced SolveError α) : Script α := do
  modify fun o => { o with events := o.events ++ x.events }
  liftExcept (x.result.mapError (·.message))

def transcript (s : Script Unit) : Transcript :=
  match s.run {} with
  | (.ok _, o) => { text := o.text, events := o.events }
  | (.error e, o) => { text := o.text, failure := some e, events := o.events }

end Script

open Script

def headline (title : String) : Script Unit := line s!"=== {title} ===\n"

/-- Numbers `x` and `y` among 0, 1 and 2 with `x + y = 2`. -/
def pairsOfSumTwo : Except BuildError (Model Int64 Int64) := do
  let domain ← Interval.new 0 2
  let (x, d) ← Draft.declareInteger {} domain "x"
  let (y, d) ← d.declareInteger domain "y"
  let d : Draft Int64 Int64 :=
    d.addConstraint { sum := .ofTerms [(x, 1), (y, 1)], interval := .point 2 }
  return d.complete { sum := .zero }

def assignmentText (vs : Values Int64 Int64) : String :=
  ", ".intercalate (vs.entries.map fun e => e.1.name ++ " = " ++ Scalar.text e.2)

def enumeration (h : Host) : Transcript := transcript do
  headline "Solution Enumeration (Constraint Programming)"
  let m ← model pairsOfSumTwo
  let (solution, reports) ← call (ExhaustiveSolver.solveReporting h m {} true false)
  for (values, i) in reports.zipIdx do
    line s!"  #{i + 1}: {assignmentText values}"
  line s!"\nStatus: {solution.status.name} after {reports.length} solutions"

/-- Tables and chairs from limited hours of two kinds of work. -/
def production : Except BuildError (Model Double Double) := do
  let real := fun n => Double.ofNat n
  let (tables, d) ← Draft.declareContinuous {} .nonNegative "tables"
  let (chairs, d) ← d.declareContinuous .nonNegative "chairs"
  let carpentry : Constraint Double Double := {
    sum := .ofTerms [(tables, real 8), (chairs, real 4)]
    interval := ← Interval.new .negInfinity (real 160)
    name := some "carpentry" }
  let finishing : Constraint Double Double := {
    sum := .ofTerms [(tables, real 2), (chairs, real 2)]
    interval := ← Interval.new .negInfinity (real 60)
    name := some "finishing" }
  let d := d.addConstraints [carpentry, finishing]
  return d.complete { sum := .ofTerms [(tables, real 70), (chairs, real 45)] }

def profitText (s : Solution Double Double) : String :=
  "$" ++ (s.objective.getD .nan).fixedText 2

/-- The model is solved twice, the second time from its MPS text. -/
def planning (h : Host) : Transcript := transcript do
  headline "Production Planning (Linear Programming)"
  let m ← model production
  line s!"{m.text}\n"
  let solver := LinearSolver.requested .highs
  let solution ← call (solver.solve h m {})
  line s!"Status: {solution.status.name}"
  line s!"Profit: {profitText solution}"
  for v in m.variables do
    if let some value := solution.values.get? v then
      line s!"  {v.name} = {value.fixedText 2}"
  let text ← call (Mps.ofModel m)
  line s!"\n{text}"
  let again ← call (solver.solveText h text {})
  line s!"Solved from MPS text: {again.status.name} with profit {profitText again}"

def items : List (String × Int64 × Int64) :=
  [("tent", 7, 150), ("stove", 3, 90), ("food", 4, 120), ("water", 5, 100), ("camera", 2, 80)]

def takeItem (d : Draft Int64 Int64) (item : String × Int64 × Int64) :
    Except BuildError (Draft Int64 Int64) := (d.declareBinary item.1).map (·.2)

/-- The most valuable things that weigh at most fifteen together. -/
def knapsack : Except BuildError (Model Int64 Int64) := do
  let d ← items.foldlM takeItem {}
  let weights ← LinearSum.Gathering.addTerms {} d.variables (items.map (·.2.1))
  let values ← LinearSum.Gathering.addTerms {} d.variables (items.map (·.2.2))
  let d := d.addConstraint {
    sum := weights.total
    interval := ← Interval.new 0 15
    name := some "capacity" }
  return d.complete { sum := values.total }

def packing (h : Host) : Transcript := transcript do
  headline "Knapsack Problem (Mixed-Integer Programming)"
  let m ← model knapsack
  let solver := LinearSolver.requested .coinCbc
  let solution ← call (solver.solve h m { timeLimitMs := some 10000 })
  line s!"Status: {solution.status.name}"
  if solution.switched then
    line "(COIN-OR CBC not linked, solved with HiGHS)"
  if let some value := solution.objective then
    line s!"Total value: ${value.fixedText 0}"
  for (v, value) in solution.values.entries do
    if Double.numLt (.one / .ofNat 2) value then
      line s!"  pack {v.name}"

end LinOpt.Showcase
