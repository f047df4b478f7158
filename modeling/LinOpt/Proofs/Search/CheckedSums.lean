import LinOpt.Proofs.Search.Exploration
import LinOpt.Proofs.Search.Guarded
import LinOpt.Proofs.Search.Magnitude

namespace LinOpt.Search

/-- Every integer up to a size is in range. -/
def Admits (ok : Int → Bool) (size : Nat) : Prop := ∀ n : Int, n.natAbs ≤ size → ok n = true

theorem Admits.guard {ok : Int → Bool} {size : Nat} (h : Admits ok size) {n : Int}
    (hn : n.natAbs ≤ size) : Option.guard ok n = some n := by
  rw [Option.guard, if_pos (h n hn)]

/-- The ranges hold all values of the domains, and all sums up to the size bounds. -/
structure Ranges.Suffice (r : Ranges) (p : Problem) : Prop where
  value : ∀ d ∈ p.domains, ∀ v, d.Contains v → r.value v = true ∧ r.value (-v) = true
  rows : List.Forall₂ (fun ok row => Admits ok (sizeBound row.coefficients p.domains)) r.rows p.rows
  objective : Admits r.objective (p.offset.natAbs + sizeBound p.objective p.domains)

section Sums

variable {ok : Int → Bool} {size : Nat}

theorem reachIn_eq (h : Admits ok size) {cs : List Int} {ds : List Domain}
    (hsize : sizeBound cs ds ≤ size) : reachIn ok cs ds = some (reach cs ds) := by
  induction cs generalizing ds with
  | nil => rfl
  | cons c cs ih =>
      cases ds with
      | nil => rfl
      | cons d ds =>
          have hrest := natAbs_reach_le cs ds
          simp only [sizeBound] at hsize
          have hlower : Option.guard ok (c * d.lower) = some _ := h.guard (by omega)
          have hupper : Option.guard ok (c * d.upper) = some _ := h.guard (by omega)
          have hlow : Option.guard ok ((reach cs ds).low + min (c * d.lower) (c * d.upper)) =
            some _ := h.guard (by omega)
          have hhigh : Option.guard ok ((reach cs ds).high + max (c * d.lower) (c * d.upper)) =
            some _ := h.guard (by omega)
          simp only [reachIn, reach, @ih ds (by omega), hlower, hupper, hlow, hhigh,
            Option.bind_eq_bind, Option.bind_some]
          rfl

theorem dotIn_eq (h : Admits ok size) {ds : List Domain} {x : List Int}
    (hx : List.Forall₂ Domain.Contains ds x) {cs : List Int} {sum : Int}
    (hsize : sum.natAbs + sizeBound cs ds ≤ size) : dotIn ok sum cs x = some (sum + dot cs x) := by
  induction hx generalizing cs sum with
  | nil => simp [dotIn]
  | @cons d v ds x hv _ ih =>
      cases cs with
      | nil => simp [dotIn, dot]
      | cons c cs =>
          have hle := natAbs_mul_le (c := c) hv.1 hv.2
          simp only [sizeBound] at hsize
          have hproduct : Option.guard ok (c * v) = some _ := h.guard (by omega)
          have hsum : Option.guard ok (sum + c * v) = some _ := h.guard (by omega)
          simp only [dotIn, hproduct, hsum, Option.bind_eq_bind, Option.bind_some]
          rw [ih (by omega), dot, Int.add_assoc]

theorem respectsIn_eq (h : Admits ok size) {test : Int → Int → Bool} {sum : Int}
    (hsize : sum.natAbs ≤ size) (bound : Option Int) :
    respectsIn ok test sum bound = some (bound.all fun b => test b sum) := by
  cases bound with
  | none => rfl
  | some b => simp [respectsIn, h.guard hsize]

theorem allowsIn_eq (h : Admits ok size) (row : LinearRow) {a : Int} {r : Reach}
    (hlow : (a + r.low).natAbs ≤ size) (hhigh : (a + r.high).natAbs ≤ size) :
    row.allowsIn ok a r = some (row.allows a r) := by
  rw [LinearRow.allowsIn, respectsIn_eq h hhigh, respectsIn_eq h hlow, LinearRow.allows,
    Option.bind_eq_bind, Option.bind_some]
  cases row.lower.all fun l => decide (l ≤ a + r.high) <;> rfl

end Sums

variable {p : Problem} {r : Ranges}

theorem objectiveValueIn_eq (hr : r.Suffice p) {x : List Int}
    (hx : List.Forall₂ Domain.Contains p.domains x) :
    p.objectiveValueIn r.objective x = some (p.objectiveValue x) := by
  have hdot := natAbs_dot_le p.objective hx
  have hvalue : Option.guard r.objective (dot p.objective x + p.offset) = some _ :=
    hr.objective.guard (by omega)
  rw [Problem.objectiveValueIn, dotIn_eq hr.objective hx (by simp), Option.bind_eq_bind,
    Option.bind_some, Int.zero_add, hvalue, Problem.objectiveValue]

section Rows

variable {oks : List (Int → Bool)} {rows : List LinearRow}

theorem reachesIn_map {f : LinearRow → List Int} {ds : List Domain}
    (h : List.Forall₂ (fun ok row => reachIn ok (f row) ds = some (reach (f row) ds)) oks rows) :
    reachesIn oks (rows.map f) ds = some (rows.map fun row => reach (f row) ds) := by
  induction h with
  | nil => rfl
  | cons hrow _ ih => simp [reachesIn, hrow, ih]

theorem allowedIn_map {f : LinearRow → Int} {g : LinearRow → Reach}
    (h : List.Forall₂ (fun ok row => row.allowsIn ok (f row) (g row) =
      some (row.allows (f row) (g row))) oks rows) :
    allowedIn oks rows (rows.map f) (rows.map g) =
      some (allowed rows (rows.map f) (rows.map g)) := by
  induction h with
  | nil => rfl
  | @cons ok row oks rows hrow _ ih =>
      simp only [List.map_cons, allowedIn, allowed, hrow, ih, Option.bind_eq_bind, Option.bind_some]
      cases row.allows (f row) (g row) <;> rfl

theorem addColumnIn_map {v : Int} {f g : LinearRow → Int}
    (h : List.Forall₂ (fun ok row => Option.guard ok (g row * v) = some (g row * v) ∧
      Option.guard ok (f row + g row * v) = some (f row + g row * v)) oks rows) :
    Task.addColumnIn v oks (rows.map f) (rows.map g) =
      some (rows.map fun row => f row + g row * v) := by
  induction h with
  | nil => rfl
  | cons hrow _ ih => simp [Task.addColumnIn, hrow.1, hrow.2, ih]

end Rows

theorem reachesIn_eq (hr : r.Suffice p) (k : Nat) :
    reachesIn r.rows (p.rows.map fun row => row.coefficients.drop k) (p.domains.drop k) =
      some (p.rowReachFrom k) := by
  apply reachesIn_map
  refine hr.rows.imp fun ok row h => reachIn_eq h ?_
  have := sizeBound_take_drop row.coefficients p.domains k
  omega

theorem costReachIn_eq (hr : r.Suffice p) (k : Nat) :
    reachIn r.objective (p.objective.drop k) (p.domains.drop k) = some (p.costReachFrom k) := by
  have := sizeBound_take_drop p.objective p.domains k
  exact reachIn_eq hr.objective (by omega)

theorem levelsIn_eq (hr : r.Suffice p) {k : Nat} {ds : List Domain} (hds : p.domains.drop k = ds) :
    levelsIn r ds (p.rows.map fun row => row.coefficients.drop k) (p.objective.drop k) =
      some (p.levelsFrom k) := by
  induction ds generalizing k with
  | nil => rw [p.levelsFrom_nil hds, levelsIn]
  | cons d ds ih =>
      have hds' : p.domains.drop (k + 1) = ds := drop_succ_of_drop hds
      have hrows := reachesIn_eq hr (k + 1)
      have hcosts := costReachIn_eq hr (k + 1)
      rw [hds'] at hrows hcosts
      simp only [levelsIn, List.map_map, Function.comp_def, List.tail_drop, hrows, hcosts, ih hds',
        Option.bind_eq_bind, Option.bind_some, p.levelsFrom_cons hds]
      rfl

end LinOpt.Search
