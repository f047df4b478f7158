import LinOpt.Proofs.Search.Completeness

namespace LinOpt.Search

/-- The same search with a clock that never finds the time to be over. -/
def Task.untimed (t : Task) : Task := { t with clock := fun _ => false }

theorem reported_prefix_of_prefix {t : Task} {xs ys : List (List Int)} (h : xs <+: ys) :
    (xs.foldl t.offer {}).reported.reverse <+: (ys.foldl t.offer {}).reported.reverse := by
  obtain ⟨zs, rfl⟩ := h
  rw [List.foldl_append, List.reverse_prefix]
  exact reported_suffix_foldl_offer zs _

theorem solution_outcomeOf {t : Task} {a : Tally} (h : a.Current t.problem) (stopped : Bool) :
    (t.outcomeOf a stopped).solution = (t.outcomeOf a stopped).reported.getLast? := by
  obtain ⟨hi, hr⟩ | ⟨x, xs, hi, hr⟩ := h.nothing_or_latest
  · rw [outcomeOf_nothing hi, hr]
    rfl
  · rw [outcomeOf_found hi, hr]
    simp

theorem feasible_of_solution {t : Task} {x : List Int} (h : t.run.solution = some x) :
    t.problem.Feasible x := by
  obtain ⟨seen, hpre, -, hrun⟩ := run_offers t
  rw [hrun] at h
  obtain ⟨⟨y, v⟩, hi, rfl⟩ := Option.map_eq_some_iff.mp h
  rcases incumbent_foldl_offer_mem hi with hx | hx
  · exact Problem.mem_solutions.mp (hpre.subset hx)
  · cases hx

theorem objectiveValue_within_rootBound {p : Problem} {x : List Int} (h : p.Feasible x) :
    if p.maximize then p.objectiveValue x ≤ p.rootBound else p.rootBound ≤ p.objectiveValue x := by
  have := reach_encloses p.objective h.inDomains
  simp only [Problem.objectiveValue, Problem.rootBound, Problem.costReach]
  split
  · omega
  · omega

/-- A stopped search has a beginning of the reports of the whole one, and the last of them as its
solution. It says that it found something or that it knows nothing. The bound that it gives holds
for every feasible point. If no answer of the clock was yes, the limit makes no difference. -/
theorem run_timed (t : Task) :
    let o := t.run
    o.reported <+: t.untimed.run.reported ∧ o.solution = o.reported.getLast? ∧
      ((∀ k, Task.Asked t.final k → t.clock k = false) → o = t.untimed.run) ∧
      ((∃ k, Task.Asked t.final k ∧ t.clock k = true) →
        o.status = (if o.reported = [] then .unknown else .feasible) ∧
        (t.optimize = true → o.reported ≠ [] → ∃ b, o.bound = some b ∧
          ∀ x, t.problem.Feasible x → if t.problem.maximize then t.problem.objectiveValue x ≤ b
            else b ≤ t.problem.objectiveValue x)) := by
  intro o
  obtain ⟨seen, hpre, hall, (hrun : o = _)⟩ := run_offers t
  have hfull : t.untimed.run = t.outcomeOf (t.problem.solutions.foldl t.offer {}) false :=
    run_untimed t.problem t.optimize
  have hcurrent := foldl_offer_current (t := t) seen (a := {}) rfl
  refine ⟨?_, ?_, ?_, ?_⟩
  · rw [hrun, hfull]
    exact reported_prefix_of_prefix hpre
  · rw [hrun]
    exact solution_outcomeOf hcurrent _
  · intro hno
    have hstopped := final_not_stopped hno
    rw [hrun, hfull, hstopped, hall hstopped]
  · intro hyes
    rw [hrun, (final_clocked t).mpr hyes]
    obtain ⟨hi, hr⟩ | ⟨x, xs, hi, hr⟩ := hcurrent.nothing_or_latest
    · rw [outcomeOf_nothing hi, hr]
      exact ⟨rfl, fun _ h => absurd rfl h⟩
    · rw [outcomeOf_found hi, hr]
      refine ⟨by simp, fun ho _ => ⟨t.problem.rootBound, by simp [ho], ?_⟩⟩
      exact fun x => objectiveValue_within_rootBound

end LinOpt.Search
