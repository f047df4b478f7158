import LinOpt.Proofs.Search.Exploration
import Mathlib.Data.List.Induction

namespace LinOpt.Search

variable {t : Task}

def Task.outcomeOf (t : Task) (a : Tally) (stopped : Bool) : Outcome :=
  let objective := a.incumbent.map fun i => if t.optimize then i.2 else 0
  { status := status stopped a.incumbent.isSome
    solution := a.incumbent.map (·.1)
    objective
    bound := objective.map fun o => if t.optimize && stopped then t.problem.rootBound else o
    reported := a.reported.reverse }

/-- A run offers a beginning of the feasible points; all of them, if the clock does not stop it. -/
theorem run_offers (t : Task) : ∃ seen, seen <+: t.problem.solutions ∧
    (t.final.stopped = false → seen = t.problem.solutions) ∧
    t.run = t.outcomeOf (seen.foldl t.offer {}) t.final.stopped := by
  obtain ⟨seen, hpre, hall, htally⟩ := (final_offers t).offered
  exact ⟨seen, hpre, hall, congrArg (t.outcomeOf · t.final.stopped) htally⟩

/-- The incumbent is the latest report, with its objective. -/
def Tally.Current (p : Problem) (a : Tally) : Prop :=
  a.incumbent = a.reported.head?.map fun x => (x, p.objectiveValue x)

theorem offer_current {a : Tally} (x : List Int) (h : a.Current t.problem) :
    (t.offer a x).Current t.problem := by
  rw [Task.offer]
  split
  · rfl
  · exact h

theorem foldl_offer_current (xs : List (List Int)) {a : Tally} (h : a.Current t.problem) :
    (xs.foldl t.offer a).Current t.problem := by
  induction xs generalizing a with
  | nil => exact h
  | cons x xs ih => exact ih (offer_current x h)

theorem reported_suffix_foldl_offer (xs : List (List Int)) (a : Tally) :
    a.reported <:+ (xs.foldl t.offer a).reported := by
  induction xs generalizing a with
  | nil => exact List.suffix_rfl
  | cons x xs ih =>
      refine List.IsSuffix.trans ?_ (ih (t.offer a x))
      rw [Task.offer]
      split
      · exact List.suffix_cons _ _
      · exact List.suffix_rfl

theorem incumbent_offer_isSome (a : Tally) (x : List Int) :
    (t.offer a x).incumbent.isSome = true := by
  rw [Task.offer]
  split
  · rfl
  · cases hi : a.incumbent with
    | some i => rfl
    | none =>
        have : t.accepts a x = true := by simp [Task.accepts, hi]
        contradiction

theorem incumbent_foldl_offer_isSome {xs : List (List Int)} (hne : xs ≠ []) :
    (xs.foldl t.offer {}).incumbent.isSome = true := by
  rw [← List.dropLast_concat_getLast hne, List.foldl_append]
  exact incumbent_offer_isSome _ _

theorem incumbent_foldl_offer_mem {xs : List (List Int)} {a : Tally} {x : List Int} {v : Int}
    (h : (xs.foldl t.offer a).incumbent = some (x, v)) : x ∈ xs ∨ a.incumbent = some (x, v) := by
  induction xs generalizing a with
  | nil => exact .inr h
  | cons y xs ih =>
      rcases ih h with hx | hx
      · exact .inl (List.mem_cons_of_mem y hx)
      · rw [Task.offer] at hx
        split at hx
        · cases hx
          exact .inl List.mem_cons_self
        · exact .inr hx

theorem Tally.Current.nothing_or_latest {p : Problem} {a : Tally} (h : a.Current p) :
    (a.incumbent = none ∧ a.reported = []) ∨
      ∃ x xs, a.incumbent = some (x, p.objectiveValue x) ∧ a.reported = x :: xs := by
  rw [Tally.Current] at h
  cases hr : a.reported with
  | nil => exact .inl ⟨by rw [h, hr]; rfl, rfl⟩
  | cons x xs => exact .inr ⟨x, xs, by rw [h, hr]; rfl, rfl⟩

theorem outcomeOf_nothing {a : Tally} (h : a.incumbent = none) (stopped : Bool) :
    t.outcomeOf a stopped =
      ⟨if stopped then .unknown else .infeasible, none, none, none, a.reported.reverse⟩ := by
  cases stopped <;> simp [Task.outcomeOf, h, status]

theorem outcomeOf_found {a : Tally} {x : List Int} {v : Int} (h : a.incumbent = some (x, v))
    (stopped : Bool) :
    t.outcomeOf a stopped =
      ⟨if stopped then .feasible else .optimal, some x, some (if t.optimize then v else 0),
        some (if t.optimize && stopped then t.problem.rootBound else if t.optimize then v else 0),
        a.reported.reverse⟩ := by
  cases stopped <;> simp [Task.outcomeOf, h, status]

theorem reported_foldl_offer_enumerating (ho : t.optimize = false) (xs : List (List Int))
    (a : Tally) : (xs.foldl t.offer a).reported = xs.reverse ++ a.reported := by
  induction xs generalizing a with
  | nil => rfl
  | cons x xs ih =>
      have hx : (t.offer a x).reported = x :: a.reported := by
        simp [Task.offer, Task.accepts, ho]
      rw [List.foldl_cons, ih, hx, List.reverse_cons, List.append_assoc]
      rfl

/-- A tally that stands for the points in `seen`: it accepts what is better than all of them. -/
def Tally.StandsFor (t : Task) (a : Tally) (seen : List (List Int)) : Prop :=
  ∀ x, t.accepts a x =
    seen.all fun y => t.problem.isBetter (t.problem.objectiveValue x) (t.problem.objectiveValue y)

theorem empty_standsFor : ({} : Tally).StandsFor t [] := by
  intro x
  simp [Task.accepts]

theorem offer_standsFor (ho : t.optimize = true) {a : Tally} {seen : List (List Int)}
    (h : a.StandsFor t seen) (x : List Int) : (t.offer a x).StandsFor t (x :: seen) := by
  intro z
  rw [List.all_cons, Task.offer]
  cases hx : t.accepts a x with
  | true =>
      have hz : t.accepts ⟨some (x, t.problem.objectiveValue x), x :: a.reported⟩ z =
          t.problem.isBetter (t.problem.objectiveValue z) (t.problem.objectiveValue x) := by
        simp [Task.accepts, ho]
      rw [if_pos rfl, hz, eq_comm, Bool.and_eq_left_iff_imp, List.all_eq_true]
      intro hzx y hy
      rw [h x, List.all_eq_true] at hx
      exact Problem.isBetter_trans hzx (hx y hy)
  | false =>
      rw [if_neg Bool.false_ne_true, h z, eq_comm, Bool.and_eq_right_iff_imp, List.all_eq_true]
      intro hz
      rw [h x, List.all_eq_false] at hx
      obtain ⟨y, hy, hxy⟩ := hx
      exact Problem.isBetter_of_not (hz y hy) hxy

theorem reported_foldl_offer_optimizing (ho : t.optimize = true) {a : Tally}
    {seen : List (List Int)} (h : a.StandsFor t seen) (xs : List (List Int)) :
    (xs.foldl t.offer a).reported.reverse =
      a.reported.reverse ++ t.problem.improvements seen xs := by
  induction xs generalizing a seen with
  | nil => simp [Problem.improvements]
  | cons x xs ih =>
      rw [List.foldl_cons, ih (offer_standsFor ho h x), Problem.improvements, ← h x, Task.offer]
      split <;> simp

theorem foldl_offer_standsFor (ho : t.optimize = true) (xs : List (List Int)) {a : Tally}
    {seen : List (List Int)} (h : a.StandsFor t seen) :
    (xs.foldl t.offer a).StandsFor t (xs.reverse ++ seen) := by
  induction xs generalizing a seen with
  | nil => exact h
  | cons x xs ih =>
      rw [List.reverse_cons, List.append_assoc]
      exact ih (offer_standsFor ho h x)

theorem incumbent_foldl_offer_value {xs : List (List Int)} {x : List Int} {v : Int}
    (h : (xs.foldl t.offer {}).incumbent = some (x, v)) : v = t.problem.objectiveValue x := by
  have hcur : (xs.foldl t.offer {}).Current t.problem := foldl_offer_current xs rfl
  rw [Tally.Current, h] at hcur
  obtain ⟨y, -, hy⟩ := Option.map_eq_some_iff.mp hcur.symm
  cases hy
  rfl

theorem firstOptimum_of_accepted {p : Problem} {xs : List (List Int)} {z : List Int}
    (h : ∀ y ∈ xs, p.isBetter (p.objectiveValue z) (p.objectiveValue y) = true) :
    p.FirstOptimum (xs ++ [z]) z := by
  refine ⟨List.mem_append_right xs List.mem_cons_self, ?_, ?_⟩
  · intro y hy hyz
    rcases List.mem_append.mp hy with hy | hy
    · exact p.isBetter_irrefl _ (Problem.isBetter_trans hyz (h y hy))
    · rw [List.mem_singleton.mp hy] at hyz
      exact p.isBetter_irrefl _ hyz
  · intro y hy he hne
    rcases List.mem_append.mp hy with hy | hy
    · have hzy := h y hy
      rw [he] at hzy
      exact absurd hzy (p.isBetter_irrefl _)
    · exact absurd (List.mem_singleton.mp hy) hne

theorem Problem.FirstOptimum.concat {p : Problem} {xs : List (List Int)} {x z : List Int}
    (h : p.FirstOptimum xs x) (hlast : ∀ y ∈ xs, y < z)
    (hz : ¬ p.isBetter (p.objectiveValue z) (p.objectiveValue x) = true) :
    p.FirstOptimum (xs ++ [z]) x := by
  refine ⟨List.mem_append_left _ h.mem, ?_, ?_⟩
  · intro y hy
    rcases List.mem_append.mp hy with hy | hy
    · exact h.best y hy
    · rw [List.mem_singleton.mp hy]
      exact hz
  · intro y hy he hne
    rcases List.mem_append.mp hy with hy | hy
    · exact h.first y hy he hne
    · rw [List.mem_singleton.mp hy]
      exact hlast x h.mem

theorem incumbent_foldl_offer_firstOptimum (ho : t.optimize = true) {xs : List (List Int)}
    (hs : xs.Pairwise (· < ·)) {x : List Int} {v : Int}
    (hx : (xs.foldl t.offer {}).incumbent = some (x, v)) : t.problem.FirstOptimum xs x := by
  -- from the end, since a point is compared with the best of all before it
  induction xs using List.reverseRecOn generalizing x v with
  | nil => cases hx
  | append_singleton xs z ih =>
      rw [List.pairwise_append] at hs
      have hstands := foldl_offer_standsFor ho xs (empty_standsFor (t := t)) z
      rw [List.append_nil, List.all_reverse] at hstands
      rw [List.foldl_append, List.foldl_cons, List.foldl_nil, Task.offer] at hx
      split at hx
      case isTrue haccepts =>
        cases hx
        exact firstOptimum_of_accepted (List.all_eq_true.mp (hstands ▸ haccepts))
      case isFalse hrejects =>
        refine (ih hs.1 hx).concat (fun y hy => hs.2.2 y hy z List.mem_cons_self) ?_
        rw [← incumbent_foldl_offer_value hx]
        simpa [Task.accepts, ho, hx] using hrejects

end LinOpt.Search
