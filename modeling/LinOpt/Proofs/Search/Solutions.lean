import LinOpt.Search.Problem
import Mathlib.Data.List.Forall2

namespace LinOpt.Search

def Domain.values (d : Domain) : List Int := (List.range d.size).map fun i : Nat => d.lower + i

/-- Every way to choose one value in each domain; the value of the first varies slowest. -/
def assignments : List Domain → List (List Int)
  | [] => [[]]
  | d :: ds => d.values.flatMap fun v => (assignments ds).map (v :: ·)

def LinearRow.holds (row : LinearRow) (x : List Int) : Bool :=
  row.lower.all (fun l => decide (l ≤ dot row.coefficients x)) &&
    row.upper.all (fun u => decide (dot row.coefficients x ≤ u))

def Domain.Contains (d : Domain) (v : Int) : Prop := d.lower ≤ v ∧ v ≤ d.upper

namespace Problem

variable (p : Problem)

/-- One value in each domain, such that every row is within its bounds. -/
structure Feasible (x : List Int) : Prop where
  inDomains : List.Forall₂ Domain.Contains p.domains x
  rowsHold : ∀ row ∈ p.rows, row.holds x

def satisfiedBy (x : List Int) : Bool := p.rows.all fun row => row.holds x

/-- The feasible points in lexicographic order. -/
def solutions : List (List Int) := (assignments p.domains).filter p.satisfiedBy

def isBetter (a b : Int) : Bool := if p.maximize then decide (b < a) else decide (a < b)

/-- The points of a list that are better than all before them, `seen` included. -/
def improvements (seen : List (List Int)) : List (List Int) → List (List Int)
  | [] => []
  | x :: xs =>
    if seen.all fun y => p.isBetter (p.objectiveValue x) (p.objectiveValue y) then
      x :: improvements (x :: seen) xs
    else improvements (x :: seen) xs

/-- No point of the list is better, and those that are as good come later in the order. -/
structure FirstOptimum (xs : List (List Int)) (x : List Int) : Prop where
  mem : x ∈ xs
  best : ∀ y ∈ xs, ¬ p.isBetter (p.objectiveValue y) (p.objectiveValue x)
  first : ∀ y ∈ xs, p.objectiveValue y = p.objectiveValue x → y ≠ x → x < y

end Problem

theorem Domain.mem_values {d : Domain} {v : Int} : v ∈ d.values ↔ d.Contains v := by
  simp only [Domain.values, Domain.size, List.mem_map, List.mem_range, Domain.Contains]
  constructor
  · rintro ⟨i, hi, rfl⟩
    omega
  · rintro ⟨hl, hu⟩
    exact ⟨(v - d.lower).toNat, by omega, by omega⟩

theorem Domain.values_sorted (d : Domain) : d.values.Pairwise (· < ·) := by
  rw [Domain.values, List.pairwise_map]
  apply List.pairwise_lt_range.imp
  intro i j hij
  omega

theorem mem_assignments {ds : List Domain} {x : List Int} :
    x ∈ assignments ds ↔ List.Forall₂ Domain.Contains ds x := by
  induction ds generalizing x with
  | nil => simp [assignments]
  | cons d ds ih =>
      simp only [assignments, List.mem_flatMap, List.mem_map, Domain.mem_values, ih]
      constructor
      · rintro ⟨v, hv, y, hy, rfl⟩
        exact .cons hv hy
      · intro h
        obtain ⟨v, y, hv, hy, rfl⟩ := List.forall₂_cons_left_iff.mp h
        exact ⟨v, hv, y, hy, rfl⟩

theorem assignments_sorted (ds : List Domain) : (assignments ds).Pairwise (· < ·) := by
  induction ds with
  | nil => exact List.pairwise_singleton _ _
  | cons d ds ih =>
      rw [assignments, List.pairwise_flatMap]
      constructor
      · intro v _
        rw [List.pairwise_map]
        exact ih.imp fun h => List.cons_lt_cons_iff.mpr (.inr ⟨rfl, h⟩)
      · apply d.values_sorted.imp
        intro v w hvw x hx y hy
        obtain ⟨x, -, rfl⟩ := List.mem_map.mp hx
        obtain ⟨y, -, rfl⟩ := List.mem_map.mp hy
        exact List.cons_lt_cons_iff.mpr (.inl hvw)

theorem Problem.mem_solutions {p : Problem} {x : List Int} : x ∈ p.solutions ↔ p.Feasible x := by
  simp only [solutions, List.mem_filter, mem_assignments, satisfiedBy, List.all_eq_true]
  exact ⟨fun h => ⟨h.1, h.2⟩, fun h => ⟨h.inDomains, h.rowsHold⟩⟩

theorem Problem.solutions_sorted (p : Problem) : p.solutions.Pairwise (· < ·) :=
  (assignments_sorted p.domains).filter _

theorem Problem.solutions_nodup (p : Problem) : p.solutions.Nodup := by
  apply p.solutions_sorted.imp
  rintro x _ h rfl
  exact List.lt_irrefl x h

theorem Problem.isBetter_iff {p : Problem} {a b : Int} :
    p.isBetter a b = true ↔ if p.maximize then b < a else a < b := by
  unfold isBetter
  split <;> simp

theorem Problem.isBetter_irrefl (p : Problem) (a : Int) : ¬ p.isBetter a a = true := by
  rw [isBetter_iff]
  split <;> exact Int.lt_irrefl a

theorem Problem.isBetter_trans {p : Problem} {a b c : Int} (hab : p.isBetter a b)
    (hbc : p.isBetter b c) : p.isBetter a c := by
  cases hm : p.maximize <;> simp [isBetter, hm] at * <;> omega

theorem Problem.isBetter_of_not {p : Problem} {a b c : Int} (hac : p.isBetter a c)
    (hbc : ¬ p.isBetter b c) : p.isBetter a b := by
  cases hm : p.maximize <;> simp [isBetter, hm] at * <;> omega

end LinOpt.Search
