import LinOpt.Proofs.Search.Tests

namespace LinOpt.Search

structure Reach.Exact (r : Reach) (cs : List Int) (ds : List Domain) : Prop where
  low : ∃ x, List.Forall₂ Domain.Contains ds x ∧ dot cs x = r.low
  high : ∃ x, List.Forall₂ Domain.Contains ds x ∧ dot cs x = r.high
  encloses : ∀ x, List.Forall₂ Domain.Contains ds x → r.low ≤ dot cs x ∧ dot cs x ≤ r.high

theorem reach_exact {ds : List Domain} (cs : List Int) (h : ∀ d ∈ ds, d.lower ≤ d.upper) :
    (reach cs ds).Exact cs ds where
  low := (reach_attained cs h).1
  high := (reach_attained cs h).2
  encloses _ hx := reach_encloses cs hx

namespace Problem

variable (p : Problem)

/-- A point of the domains that begins with `x`, whatever the rows make of it. -/
structure Completes (x y : List Int) : Prop where
  begins : x <+: y
  inDomains : List.Forall₂ Domain.Contains p.domains y

/-- Some completion of `x` reaches the lower bound of the row, and some, perhaps another one, stays
within the upper bound. -/
structure LeavesRoom (x : List Int) (row : LinearRow) : Prop where
  reaches : ∃ y, p.Completes x y ∧ ∀ l ∈ row.lower, l ≤ dot row.coefficients y
  stays : ∃ y, p.Completes x y ∧ ∀ u ∈ row.upper, dot row.coefficients y ≤ u

variable {p} {x : List Int}

theorem dot_completion {y : List Int} (cs : List Int) (h : p.Completes x y) :
    dot cs x + (reach (cs.drop x.length) (p.domains.drop x.length)).low ≤ dot cs y ∧
      dot cs y ≤ dot cs x + (reach (cs.drop x.length) (p.domains.drop x.length)).high := by
  obtain ⟨⟨z, rfl⟩, hz⟩ := h
  exact dot_append_encloses cs (List.forall₂_drop_append _ _ _ hz)

theorem completes_append {z : List Int}
    (hx : List.Forall₂ Domain.Contains (p.domains.take x.length) x)
    (hz : List.Forall₂ Domain.Contains (p.domains.drop x.length) z) : p.Completes x (x ++ z) := by
  refine ⟨List.prefix_append x z, ?_⟩
  rw [← List.take_append_drop x.length p.domains]
  exact List.rel_append hx hz

section Nonempty

variable (hd : ∀ d ∈ p.domains, d.lower ≤ d.upper)
  (hx : List.Forall₂ Domain.Contains (p.domains.take x.length) x)

include hd hx

theorem exists_extreme (cs : List Int) :
    (∃ y, p.Completes x y ∧
      dot cs y = dot cs x + (reach (cs.drop x.length) (p.domains.drop x.length)).low) ∧
      ∃ y, p.Completes x y ∧
        dot cs y = dot cs x + (reach (cs.drop x.length) (p.domains.drop x.length)).high := by
  obtain ⟨⟨z, hz, hlow⟩, w, hw, hhigh⟩ := reach_attained (cs.drop x.length)
    fun d h => hd d (List.mem_of_mem_drop h)
  exact ⟨⟨x ++ z, completes_append hx hz, by rw [dot_append, hlow]⟩,
    ⟨x ++ w, completes_append hx hw, by rw [dot_append, hhigh]⟩⟩

theorem allows_iff_leavesRoom (row : LinearRow) :
    row.allows (dot row.coefficients x)
      (reach (row.coefficients.drop x.length) (p.domains.drop x.length)) = true ↔
      p.LeavesRoom x row := by
  rw [LinearRow.allows_iff]
  constructor
  · rintro ⟨hlower, hupper⟩
    -- the bounds are met at opposite ends, in general by different completions
    obtain ⟨⟨y, hy, hlow⟩, z, hz, hhigh⟩ := exists_extreme hd hx row.coefficients
    exact ⟨⟨z, hz, hhigh ▸ hlower⟩, ⟨y, hy, hlow ▸ hupper⟩⟩
  · rintro ⟨⟨y, hy, hlower⟩, z, hz, hupper⟩
    exact ⟨fun l hl => (hlower l hl).trans (dot_completion _ hy).2,
      fun u hu => (dot_completion _ hz).1.trans (hupper u hu)⟩

theorem exists_better_iff (best : Int) :
    (∃ y, p.Completes x y ∧ p.isBetter (p.objectiveValue y) best = true) ↔
      if p.maximize then best < dot p.objective x +
        (reach (p.objective.drop x.length) (p.domains.drop x.length)).high + p.offset
      else dot p.objective x +
        (reach (p.objective.drop x.length) (p.domains.drop x.length)).low + p.offset < best := by
  simp only [isBetter_iff, objectiveValue]
  split
  · constructor
    · rintro ⟨y, hy, hbest⟩
      have := dot_completion p.objective hy
      omega
    · intro hbest
      obtain ⟨-, y, hy, hhigh⟩ := exists_extreme hd hx p.objective
      exact ⟨y, hy, hhigh ▸ hbest⟩
  · constructor
    · rintro ⟨y, hy, hbest⟩
      have := dot_completion p.objective hy
      omega
    · intro hbest
      obtain ⟨⟨y, hy, hlow⟩, -⟩ := exists_extreme hd hx p.objective
      exact ⟨y, hy, hlow ▸ hbest⟩

end Nonempty

theorem Feasible.leavesRoom {y : List Int} (h : p.Feasible y) (hy : p.Completes x y)
    {row : LinearRow} (hrow : row ∈ p.rows) : p.LeavesRoom x row := by
  obtain ⟨hlower, hupper⟩ := LinearRow.holds_iff.mp (h.rowsHold row hrow)
  exact ⟨⟨y, hy, hlower⟩, ⟨y, hy, hupper⟩⟩

end Problem

def Test.chosen (e : Test) : List Int := e.board.values.take e.depth

/-- The answers of the two tests say what completions there are. -/
structure Test.Exact (t : Task) (e : Test) : Prop where
  rows : t.consistent e.depth e.board = true ↔ ∀ row ∈ t.problem.rows,
    t.problem.LeavesRoom e.chosen row
  refused : t.consistent e.depth e.board = false →
    ∀ y, t.problem.Completes e.chosen y → ¬ t.problem.Feasible y
  leaf : e.depth = t.problem.domains.length → (t.consistent e.depth e.board = true ↔
    ∀ row ∈ t.problem.rows, row.holds e.board.values = true)
  objective : t.optimize = true → ∀ x best, e.board.incumbent = some (x, best) →
    best = t.problem.objectiveValue x ∧ (t.canImprove e.depth e.board = true ↔
      ∃ y, t.problem.Completes e.chosen y ∧
        t.problem.isBetter (t.problem.objectiveValue y) (t.problem.objectiveValue x) = true)

variable {t : Task} {k : Nat} {b : Board}

namespace Reached

theorem consistent_iff (h : Reached t.problem k b) : t.consistent k b = true ↔
    ∀ row ∈ t.problem.rows, row.allows (dot row.coefficients (b.values.take k))
      (reach (row.coefficients.drop k) (t.problem.domains.drop k)) = true := by
  rw [Task.consistent, h.activity_eq_dot, Problem.rowReachFrom, allowed_map, List.all_eq_true]

theorem inDomains_take (h : Reached t.problem k b) : List.Forall₂ Domain.Contains
    (t.problem.domains.take (b.values.take k).length) (b.values.take k) := by
  rw [h.length_take]
  exact h.inDomains

theorem consistent_iff_leavesRoom (h : Reached t.problem k b)
    (hd : ∀ d ∈ t.problem.domains, d.lower ≤ d.upper) :
    t.consistent k b = true ↔
      ∀ row ∈ t.problem.rows, t.problem.LeavesRoom (b.values.take k) row := by
  rw [h.consistent_iff]
  refine forall₂_congr fun row _ => ?_
  rw [← Problem.allows_iff_leavesRoom hd h.inDomains_take row, h.length_take]

theorem consistent_leaf (h : Reached t.problem k b) (hk : k = t.problem.domains.length) :
    t.consistent k b = true ↔ ∀ row ∈ t.problem.rows, row.holds b.values = true := by
  have hrest : t.problem.domains.drop k = [] := List.drop_eq_nil_iff.mpr (Nat.le_of_eq hk.symm)
  rw [h.consistent_iff]
  refine forall₂_congr fun row _ => ?_
  rw [h.take_eq hk, hrest, reach_nil, LinearRow.allows_iff, LinearRow.holds_iff]
  simp only [Int.add_zero]

theorem objective_of_incumbent (h : Reached t.problem k b) {x : List Int} {best : Int}
    (hi : b.incumbent = some (x, best)) : best = t.problem.objectiveValue x := by
  obtain ⟨hnone, -⟩ | ⟨y, ys, hy, -⟩ := h.current.nothing_or_latest
  · cases hi.symm.trans hnone
  · cases hi.symm.trans hy
    rfl

theorem canImprove_iff (h : Reached t.problem k b)
    (hd : ∀ d ∈ t.problem.domains, d.lower ≤ d.upper) (ho : t.optimize = true) {x : List Int}
    {best : Int} (hi : b.incumbent = some (x, best)) :
    t.canImprove k b = true ↔ ∃ y, t.problem.Completes (b.values.take k) y ∧
      t.problem.isBetter (t.problem.objectiveValue y) best = true := by
  rw [Problem.exists_better_iff hd h.inDomains_take, h.length_take, ← h.cost_eq_dot]
  simp only [Task.canImprove, ho, hi, Problem.costReachFrom]
  split
  · exact decide_eq_true_iff
  · exact decide_eq_true_iff

theorem test_exact {e : Test} (h : Reached t.problem e.depth e.board)
    (hd : ∀ d ∈ t.problem.domains, d.lower ≤ d.upper) : e.Exact t where
  rows := h.consistent_iff_leavesRoom hd
  refused hno y hy hfeasible := by
    have hyes := (h.consistent_iff_leavesRoom hd).mpr fun row hrow => hfeasible.leavesRoom hy hrow
    exact Bool.noConfusion (hno.symm.trans hyes)
  leaf := h.consistent_leaf
  objective ho x best hi := by
    have hbest := h.objective_of_incumbent hi
    exact ⟨hbest, hbest ▸ h.canImprove_iff hd ho hi⟩

end Reached

/-- At every depth the reach of a sum is exact. Whatever the clock answers, a search asks in the
recorded states only; there, if no domain is empty, the test of the rows passes exactly if each row
has room by itself, and the test of the objective exactly if a completion beats the incumbent. -/
theorem pruning_exact :
    (∀ (cs : List Int) (ds : List Domain), (∀ d ∈ ds, d.lower ≤ d.upper) →
      ∀ k, (reach (cs.drop k) (ds.drop k)).Exact (cs.drop k) (ds.drop k)) ∧
    ∀ t : Task, t.walk.board.view 0 = t.final ∧ t.AsksOnly t.tests ∧
      ((∀ d ∈ t.problem.domains, d.lower ≤ d.upper) → ∀ e ∈ t.tests, e.Exact t) := by
  refine ⟨fun cs ds hd k => reach_exact _ fun d h => hd d (List.mem_of_mem_drop h), fun t => ?_⟩
  exact ⟨(walk_walked t).view, asksOnly_tests t, fun hd e he => (reached_tests t e he).test_exact hd⟩

def mixedTask : Task where
  problem := ⟨[⟨-1, 2⟩, ⟨0, 2⟩], [⟨[2, -3], some (-4), some 1⟩, ⟨[1, 1], some 1, none⟩], [-1, 2], 5,
    true⟩
  optimize := true
  clock _ := false

theorem pruning_exact_mixed :
    (reach [2, -3] mixedTask.problem.domains).Exact [2, -3] mixedTask.problem.domains ∧
      ∃ e ∈ mixedTask.tests, (e.chosen = [2] ∧ e.board.incumbent = some ([1, 2], 8) ∧
        mixedTask.consistent e.depth e.board = true ∧
        mixedTask.canImprove e.depth e.board = false) ∧ e.Exact mixedTask := by
  have hd : ∀ d ∈ mixedTask.problem.domains, d.lower ≤ d.upper := by decide
  obtain ⟨e, he, hlast⟩ : ∃ e ∈ mixedTask.tests, e.chosen = [2] ∧
    e.board.incumbent = some ([1, 2], 8) ∧ mixedTask.consistent e.depth e.board = true ∧
      mixedTask.canImprove e.depth e.board = false := by decide
  exact ⟨pruning_exact.1 [2, -3] _ hd 0, e, he, hlast, (pruning_exact.2 mixedTask).2.2 hd e he⟩

/-- Each row has room by itself, but no completion respects both. -/
example : ∃ e ∈ mixedTask.tests, e.chosen = [-1] ∧
    mixedTask.consistent e.depth e.board = true ∧ mixedTask.problem.extensions e.chosen = [] := by
  decide

end LinOpt.Search
