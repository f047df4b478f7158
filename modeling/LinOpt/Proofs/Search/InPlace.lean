import LinOpt.Proofs.Search.Exploration

namespace LinOpt.Search

/-- Every variable has its own place for a value. Places are written on the way down and not cleared
on the way up. -/
structure Board where
  values : List Int
  activity : List Int
  cost : Int := 0
  incumbent : Option (List Int × Int) := none
  reported : List (List Int) := []
  nodes : Nat := 0
  stopped : Bool := false

structure Call where
  depth : Nat
  entry : Board
  exit : Board
  goesOn : Bool

/-- The answer of a call, the state it leaves, and the calls made on the way, in order of entry. -/
structure Walk where
  goesOn : Bool
  board : Board
  calls : List Call := []

def Board.start (p : Problem) : Board where
  values := List.replicate p.domains.length 0
  activity := p.rows.map fun _ => 0

/-- A value is put in its place; with a negative sign only the sums change. -/
def Board.assign (p : Problem) (k : Nat) (v sign : Int) (b : Board) : Board :=
  { b with
    values := if 0 < sign then b.values.set k v else b.values
    activity := b.activity.zipWith (fun a row => a + row.coefficients.getD k 0 * (v * sign)) p.rows
    cost := b.cost + p.objective.getD k 0 * (v * sign) }

def Board.record (p : Problem) (b : Board) : Board :=
  { b with
    incumbent := some (b.values, p.objectiveValue b.values)
    reported := b.values :: b.reported }

namespace Task

variable (t : Task)

def consistent (k : Nat) (b : Board) : Bool :=
  allowed t.problem.rows b.activity (t.problem.rowReachFrom k)

def canImprove (k : Nat) (b : Board) : Bool :=
  match t.optimize, b.incumbent with
  | true, some (_, best) =>
    if t.problem.maximize then
      decide (best < b.cost + (t.problem.costReachFrom k).high + t.problem.offset)
    else decide (b.cost + (t.problem.costReachFrom k).low + t.problem.offset < best)
  | _, _ => true

def timeUp (n : Nat) : Bool := n % nodesPerCheck == 0 && t.clock (n / nodesPerCheck)

/-- A call: the node is counted, the clock may end the search, and otherwise the body runs. -/
def enter (k : Nat) (b : Board) (body : Board → Walk) : Walk :=
  let counted := { b with nodes := b.nodes + 1 }
  let w := if t.timeUp counted.nodes then ⟨false, { counted with stopped := true }, []⟩
    else body counted
  { w with calls := ⟨k, b, w.board, w.goesOn⟩ :: w.calls }

def attempt (k : Nat) (below : Board → Walk) (v : Int) (b : Board) : Walk :=
  let b := b.assign t.problem k v 1
  let w := if t.consistent (k + 1) b && t.canImprove (k + 1) b then below b else ⟨true, b, []⟩
  { w with board := w.board.assign t.problem k v (-1) }

def attempts (f : Int → Board → Walk) (v : Int) : Nat → Board → Walk
  | 0, b => ⟨true, b, []⟩
  | n + 1, b =>
    let w := f v b
    if w.goesOn then
      let rest := attempts f (v + 1) n w.board
      { rest with calls := w.calls ++ rest.calls }
    else w

/-- The call at depth `k`, where these are the domains of the variables from there on. -/
def descend : List Domain → Nat → Board → Walk
  | [], k, b => t.enter k b fun b => ⟨true, b.record t.problem, []⟩
  | d :: ds, k, b =>
    t.enter k b (attempts (t.attempt k (descend ds (k + 1))) d.lower d.size)

def walk : Walk :=
  let b := Board.start t.problem
  if t.consistent 0 b then t.descend t.problem.domains 0 b else ⟨true, b, []⟩

end Task

namespace Board

variable {t : Task} {p : Problem} {k : Nat} {b : Board}

/-- The first `k` places as the chosen values. -/
def view (k : Nat) (b : Board) : State where
  chosen := (b.values.take k).reverse
  activity := b.activity
  cost := b.cost
  incumbent := b.incumbent
  reported := b.reported
  nodes := b.nodes
  stopped := b.stopped

theorem point_view : (b.view k).point = b.values.take k := List.reverse_reverse _

theorem length_chosen (hk : k ≤ b.values.length) : (b.view k).chosen.length = k := by
  rw [view, List.length_reverse, List.length_take, Nat.min_eq_left hk]

theorem headD_drop (cs : List Int) (k : Nat) : (cs.drop k).headD 0 = cs.getD k 0 := by
  rw [List.headD_eq_head?_getD, List.head?_drop, List.getD_eq_getElem?_getD]

theorem view_assign (hk : k < b.values.length) (d : Domain) (v : Int) :
    (b.assign p k v 1).view (k + 1) = Task.choose (p.levelAt k d) v (b.view k) := by
  have hvalues : (b.values.set k v).take (k + 1) = b.values.take k ++ [v] := by
    rw [List.take_succ_eq_append_getElem (by simpa using hk), List.take_set_of_le (Nat.le_refl k),
      List.getElem_set_self]
  simp only [view, assign, Task.choose, Problem.levelAt, hvalues, headD_drop, List.zipWith_map_right,
    List.reverse_append, List.reverse_singleton, List.singleton_append, Int.mul_one, if_pos Int.one_pos]

theorem view_unassign (hk : k < b.values.length) (d : Domain) (v : Int) :
    (b.assign p k v (-1)).view k = Task.takeBack (p.levelAt k d) v (b.view (k + 1)) := by
  have hchosen : (b.values.take (k + 1)).reverse.tail = (b.values.take k).reverse := by
    rw [List.take_succ_eq_append_getElem hk, List.reverse_append]
    rfl
  have hsign : ¬ (0 : Int) < -1 := by decide
  simp only [view, assign, Task.takeBack, Problem.levelAt, hchosen, headD_drop,
    List.zipWith_map_right, if_neg hsign, Int.mul_neg, Int.mul_one, Int.sub_eq_add_neg]

theorem view_record (hk : b.values.length = k) :
    (b.record t.problem).view k = t.record (b.view k) := by
  have hvalues : b.values.take k = b.values := List.take_of_length_le (Nat.le_of_eq hk)
  simp only [view, record, Task.record, hvalues, List.reverse_reverse]

theorem view_start (t : Task) : (Board.start t.problem).view 0 = t.start := rfl

theorem promising_levelAt (t : Task) (k : Nat) (d : Domain) (b : Board) :
    t.promising (t.problem.levelAt k d) (b.view (k + 1)) =
      (t.consistent (k + 1) b && t.canImprove (k + 1) b) := rfl

theorem visit_view (h : b.stopped = false) (k : Nat) : t.visit (b.view k) =
    ({ b with nodes := b.nodes + 1, stopped := t.timeUp (b.nodes + 1) } : Board).view k := by
  simp only [Task.visit, view, Task.timeUp, h, Bool.false_or]

end Board

end LinOpt.Search
