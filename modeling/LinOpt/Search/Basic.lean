import LinOpt.Search.Reach

namespace LinOpt.Search

inductive Status
  | unknown
  | modelInvalid
  | feasible
  | infeasible
  | optimal
deriving DecidableEq

def Status.name : Status → String
  | unknown => "Unknown"
  | modelInvalid => "ModelInvalid"
  | feasible => "Feasible"
  | infeasible => "Infeasible"
  | optimal => "Optimal"

/-- The latest choice and the latest report come first. -/
structure State where
  chosen : List Int := []
  activity : List Int
  cost : Int := 0
  incumbent : Option (List Int × Int) := none
  reported : List (List Int) := []
  nodes : Nat := 0
  stopped : Bool := false

/-- What to look for, how, and the answers of the clock: whether its check of a given number finds
the time to be over. -/
structure Task where
  problem : Problem
  optimize : Bool
  clock : Nat → Bool

def nodesPerCheck : Nat := 1024

namespace Task

variable (t : Task)

def start : State := { activity := t.problem.rows.map fun _ => 0 }

def visit (s : State) : State :=
  let n := s.nodes + 1
  { s with
    nodes := n
    stopped := s.stopped || (n % nodesPerCheck == 0 && t.clock (n / nodesPerCheck)) }

def choose (l : Level) (v : Int) (s : State) : State :=
  { s with
    chosen := v :: s.chosen
    activity := s.activity.zipWith (fun a c => a + c * v) l.column
    cost := s.cost + l.cost * v }

def takeBack (l : Level) (v : Int) (s : State) : State :=
  { s with
    chosen := s.chosen.tail
    activity := s.activity.zipWith (fun a c => a - c * v) l.column
    cost := s.cost - l.cost * v }

def mayImprove (s : State) (r : Reach) : Bool :=
  match t.optimize, s.incumbent with
  | true, some (_, best) =>
    if t.problem.maximize then decide (best < s.cost + r.high + t.problem.offset)
    else decide (s.cost + r.low + t.problem.offset < best)
  | _, _ => true

def promising (l : Level) (s : State) : Bool :=
  allowed t.problem.rows s.activity l.rowReach && t.mayImprove s l.costReach

def record (s : State) : State :=
  let values := s.chosen.reverse
  { s with
    incumbent := some (values, t.problem.objectiveValue values)
    reported := values :: s.reported }

def tryValues (f : Int → State → State) (v : Int) : Nat → State → State
  | 0, s => s
  | n + 1, s =>
    let s := f v s
    if s.stopped then s else tryValues f (v + 1) n s

/-- Depth first, variable by variable and value by value. Choosing a value adds its share to the
sums, and taking it back subtracts it. -/
def explore : List Level → State → State
  | [], s =>
    let s := t.visit s
    if s.stopped then s else t.record s
  | l :: ls, s =>
    let s := t.visit s
    if s.stopped then s
    else
      tryValues (fun v s =>
        let s := choose l v s
        takeBack l v (if t.promising l s then explore ls s else s))
        l.domain.lower l.domain.size s

def final : State :=
  if allowed t.problem.rows t.start.activity t.problem.rowReach then
    t.explore t.problem.levels t.start
  else t.start

end Task

/-- How a search ended. -/
structure Outcome where
  status : Status
  solution : Option (List Int)
  objective : Option Int
  bound : Option Int
  /-- The assignments found, in order: each better one, or all of them without an objective. -/
  reported : List (List Int)
deriving DecidableEq

def status (stopped found : Bool) : Status :=
  match stopped, found with
  | false, true => .optimal
  | false, false => .infeasible
  | true, true => .feasible
  | true, false => .unknown

def Problem.rootBound (p : Problem) : Int :=
  (if p.maximize then p.costReach.high else p.costReach.low) + p.offset

/-- Without an objective to optimize, objective and bound are zero. -/
def Task.run (t : Task) : Outcome :=
  let s := t.final
  let objective := s.incumbent.map fun i => if t.optimize then i.2 else 0
  { status := status s.stopped s.incumbent.isSome
    solution := s.incumbent.map (·.1)
    objective
    bound := objective.map fun o =>
      if t.optimize && s.stopped then t.problem.rootBound else o
    reported := s.reported.reverse }

end LinOpt.Search
