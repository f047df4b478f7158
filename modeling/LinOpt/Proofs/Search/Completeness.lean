import LinOpt.Proofs.Search.Clock
import LinOpt.Proofs.Search.Tally
import LinOpt.Solver.Exhaustive

namespace LinOpt.Search

theorem run_untimed (p : Problem) (optimize : Bool) :
    let t : Task := ⟨p, optimize, fun _ => false⟩
    t.run = t.outcomeOf (p.solutions.foldl t.offer {}) false := by
  intro t
  obtain ⟨seen, -, hall, hrun⟩ := run_offers t
  have hstopped : t.final.stopped = false := final_not_stopped fun _ _ => rfl
  rw [hrun, hstopped, hall hstopped]

theorem run_untimed_verdict (p : Problem) (optimize : Bool) :
    let o := Task.run ⟨p, optimize, fun _ => false⟩
    (o.status = .infeasible ∧ o.solution = none ∧ ∀ x, ¬ p.Feasible x) ∨
      ∃ x v, o.status = .optimal ∧ o.solution = some x ∧ o.objective = some v ∧ p.Feasible x := by
  intro o
  let t : Task := ⟨p, optimize, fun _ => false⟩
  have hrun : o = t.outcomeOf (p.solutions.foldl t.offer {}) false := run_untimed p optimize
  rw [hrun]
  cases hi : (p.solutions.foldl t.offer {}).incumbent with
  | none =>
      rw [outcomeOf_nothing hi]
      refine .inl ⟨rfl, rfl, fun x hx => ?_⟩
      have hsome := incumbent_foldl_offer_isSome (t := t)
        (List.ne_nil_of_mem (Problem.mem_solutions.mpr hx))
      rw [hi] at hsome
      cases hsome
  | some i =>
      rw [outcomeOf_found hi]
      rcases incumbent_foldl_offer_mem hi with hx | hx
      · exact .inr ⟨i.1, _, rfl, rfl, rfl, Problem.mem_solutions.mp hx⟩
      · cases hx

/-- Without an objective to follow, a search reports exactly the feasible points, each once and in
lexicographic order, and its solution is the last of them. -/
theorem run_enumerating (p : Problem) :
    let o := Task.run ⟨p, false, fun _ => false⟩
    (∀ x, x ∈ o.reported ↔ p.Feasible x) ∧ o.reported.Nodup ∧ o.reported.Pairwise (· < ·) ∧
      ((∃ x, p.Feasible x) → o.status = .optimal ∧
        ∃ x, o.solution = some x ∧ p.Feasible x ∧ ∀ y, p.Feasible y → y ≠ x → y < x) ∧
      ((∀ x, ¬ p.Feasible x) → o.status = .infeasible ∧ o.solution = none) := by
  intro o
  let t : Task := ⟨p, false, fun _ => false⟩
  have hrun : o = t.outcomeOf (p.solutions.foldl t.offer {}) false := run_untimed p false
  have htally : (p.solutions.foldl t.offer {}).reported = p.solutions.reverse :=
    (reported_foldl_offer_enumerating rfl p.solutions {}).trans (List.append_nil _)
  have hreported : o.reported = p.solutions := by
    rw [hrun]
    exact (congrArg List.reverse htally).trans (List.reverse_reverse _)
  have hcurrent := foldl_offer_current (t := t) p.solutions (a := {}) rfl
  rw [hreported]
  refine ⟨fun x => Problem.mem_solutions, p.solutions_nodup, p.solutions_sorted, ?_, ?_⟩
  · rintro ⟨y, hy⟩
    have hmem : y ∈ p.solutions := Problem.mem_solutions.mpr hy
    obtain ⟨-, hxs⟩ | ⟨x, xs, hx, hxs⟩ := hcurrent.nothing_or_latest
    · rw [htally, List.reverse_eq_nil_iff] at hxs
      rw [hxs] at hmem
      cases hmem
    · have hlast : p.solutions = xs.reverse ++ [x] := by
        rw [← List.reverse_reverse p.solutions, ← htally, hxs, List.reverse_cons]
      have hsorted := p.solutions_sorted
      rw [hlast, List.pairwise_append] at hsorted
      rw [hrun, outcomeOf_found hx]
      refine ⟨rfl, x, rfl, Problem.mem_solutions.mp (by simp [hlast]), ?_⟩
      intro z hz hne
      have hz := Problem.mem_solutions.mpr hz
      rw [hlast, List.mem_append, List.mem_singleton] at hz
      exact hsorted.2.2 z (hz.resolve_right hne) x List.mem_cons_self
  · intro hnone
    have hempty : p.solutions = [] :=
      List.eq_nil_iff_forall_not_mem.mpr fun x hx => hnone x (Problem.mem_solutions.mp hx)
    rw [hrun, hempty]
    exact ⟨rfl, rfl⟩

/-- With an objective to follow, a search reports the feasible points that are better than all
before them in lexicographic order. The last of these is the first optimum. It is the solution, and
objective and bound are its objective. -/
theorem run_optimizing (p : Problem) :
    let o := Task.run ⟨p, true, fun _ => false⟩
    (∀ x, x ∈ p.solutions ↔ p.Feasible x) ∧ p.solutions.Pairwise (· < ·) ∧
      o.reported = p.improvements [] p.solutions ∧
      (p.solutions ≠ [] → ∃ x, p.FirstOptimum p.solutions x ∧ o.reported.getLast? = some x ∧
        o.status = .optimal ∧ o.solution = some x ∧
        o.objective = some (p.objectiveValue x) ∧ o.bound = some (p.objectiveValue x) ∧
        ExhaustiveSolver.reportOf o = some ⟨x.map Double.ofInt,
          some (Double.ofInt (p.objectiveValue x)), some (Double.ofInt (p.objectiveValue x))⟩) ∧
      (p.solutions = [] → o = ⟨.infeasible, none, none, none, []⟩) := by
  intro o
  let t : Task := ⟨p, true, fun _ => false⟩
  have hrun : o = t.outcomeOf (p.solutions.foldl t.offer {}) false := run_untimed p true
  have hreported : o.reported = p.improvements [] p.solutions := by
    rw [hrun]
    exact reported_foldl_offer_optimizing rfl empty_standsFor p.solutions
  refine ⟨fun x => Problem.mem_solutions, p.solutions_sorted, hreported, ?_, ?_⟩
  · intro hne
    have hcurrent := foldl_offer_current (t := t) p.solutions (a := {}) rfl
    obtain ⟨hx, -⟩ | ⟨x, xs, hx, hxs⟩ := hcurrent.nothing_or_latest
    · have := incumbent_foldl_offer_isSome (t := t) hne
      rw [hx] at this
      cases this
    · rw [outcomeOf_found hx, hxs] at hrun
      rw [hrun]
      exact ⟨x, incumbent_foldl_offer_firstOptimum rfl p.solutions_sorted hx, by simp, rfl, rfl,
        rfl, rfl, rfl⟩
  · intro hempty
    rw [hrun, hempty]
    rfl

end LinOpt.Search
