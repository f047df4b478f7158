import LinOpt.Proofs.Search.Solutions
import LinOpt.Search.Reach

namespace LinOpt.Search

@[simp] theorem dot_nil (cs : List Int) : dot cs [] = 0 := by cases cs <;> rfl

@[simp] theorem dot_cons (cs : List Int) (v : Int) (vs : List Int) :
    dot cs (v :: vs) = cs.headD 0 * v + dot cs.tail vs := by
  cases cs with
  | nil => simp [dot]
  | cons c cs => rfl

theorem dot_append (cs xs ys : List Int) :
    dot cs (xs ++ ys) = dot cs xs + dot (cs.drop xs.length) ys := by
  induction xs generalizing cs with
  | nil => simp
  | cons x xs ih =>
      rw [List.cons_append, dot_cons, dot_cons, ih, List.drop_tail, List.length_cons]
      omega

theorem mul_within {c l u v : Int} (hl : l ≤ v) (hu : v ≤ u) :
    min (c * l) (c * u) ≤ c * v ∧ c * v ≤ max (c * l) (c * u) := by
  rcases Int.le_total 0 c with hc | hc
  · have h₁ := Int.mul_le_mul_of_nonneg_left hl hc
    have h₂ := Int.mul_le_mul_of_nonneg_left hu hc
    omega
  · have h₁ := Int.mul_le_mul_of_nonpos_left hc hl
    have h₂ := Int.mul_le_mul_of_nonpos_left hc hu
    omega

theorem reach_nil (cs : List Int) : reach cs [] = ⟨0, 0⟩ := by cases cs <;> rfl

theorem reach_cons (cs : List Int) (d : Domain) (ds : List Domain) :
    reach cs (d :: ds) =
      ⟨(reach cs.tail ds).low + min (cs.headD 0 * d.lower) (cs.headD 0 * d.upper),
        (reach cs.tail ds).high + max (cs.headD 0 * d.lower) (cs.headD 0 * d.upper)⟩ := by
  cases cs with
  | nil => simp [reach]
  | cons c cs => rfl

theorem reach_encloses {ds : List Domain} {x : List Int} (cs : List Int)
    (h : List.Forall₂ Domain.Contains ds x) :
    (reach cs ds).low ≤ dot cs x ∧ dot cs x ≤ (reach cs ds).high := by
  induction h generalizing cs with
  | nil => simp [reach_nil]
  | cons hv _ ih =>
      have hc := mul_within (c := cs.headD 0) hv.1 hv.2
      have := ih cs.tail
      simp only [reach_cons, dot_cons]
      omega

theorem exists_mul_eq {d : Domain} (h : d.lower ≤ d.upper) (c : Int) :
    (∃ v, d.Contains v ∧ c * v = min (c * d.lower) (c * d.upper)) ∧
      ∃ v, d.Contains v ∧ c * v = max (c * d.lower) (c * d.upper) := by
  have hlower : d.Contains d.lower := ⟨Int.le_refl _, h⟩
  have hupper : d.Contains d.upper := ⟨h, Int.le_refl _⟩
  rcases Int.le_total (c * d.lower) (c * d.upper) with hc | hc
  · rw [Int.min_eq_left hc, Int.max_eq_right hc]
    exact ⟨⟨_, hlower, rfl⟩, ⟨_, hupper, rfl⟩⟩
  · rw [Int.min_eq_right hc, Int.max_eq_left hc]
    exact ⟨⟨_, hupper, rfl⟩, ⟨_, hlower, rfl⟩⟩

theorem reach_attained {ds : List Domain} (cs : List Int) (h : ∀ d ∈ ds, d.lower ≤ d.upper) :
    (∃ x, List.Forall₂ Domain.Contains ds x ∧ dot cs x = (reach cs ds).low) ∧
      ∃ x, List.Forall₂ Domain.Contains ds x ∧ dot cs x = (reach cs ds).high := by
  induction ds generalizing cs with
  | nil =>
      rw [reach_nil]
      exact ⟨⟨[], .nil, dot_nil cs⟩, ⟨[], .nil, dot_nil cs⟩⟩
  | cons d ds ih =>
      obtain ⟨hd, hds⟩ := List.forall_mem_cons.mp h
      obtain ⟨⟨v, hv, hlow⟩, w, hw, hhigh⟩ := exists_mul_eq hd (cs.headD 0)
      obtain ⟨⟨x, hx, hxlow⟩, y, hy, hyhigh⟩ := ih cs.tail hds
      rw [reach_cons]
      -- the variables are independent, so each takes the end that its own coefficient favours
      refine ⟨⟨v :: x, .cons hv hx, ?_⟩, ⟨w :: y, .cons hw hy, ?_⟩⟩
      · rw [dot_cons, hlow, hxlow, Int.add_comm]
      · rw [dot_cons, hhigh, hyhigh, Int.add_comm]

theorem dot_append_encloses {ds : List Domain} {x z : List Int} (cs : List Int)
    (h : List.Forall₂ Domain.Contains (ds.drop x.length) z) :
    dot cs x + (reach (cs.drop x.length) (ds.drop x.length)).low ≤ dot cs (x ++ z) ∧
      dot cs (x ++ z) ≤ dot cs x + (reach (cs.drop x.length) (ds.drop x.length)).high := by
  have := reach_encloses (cs.drop x.length) h
  rw [dot_append]
  omega

theorem LinearRow.holds_iff {row : LinearRow} {x : List Int} :
    row.holds x = true ↔ (∀ l ∈ row.lower, l ≤ dot row.coefficients x) ∧
      ∀ u ∈ row.upper, dot row.coefficients x ≤ u := by
  simp [holds, Option.all_eq_true]

theorem LinearRow.allows_iff {row : LinearRow} {a : Int} {r : Reach} :
    row.allows a r = true ↔ (∀ l ∈ row.lower, l ≤ a + r.high) ∧ ∀ u ∈ row.upper, a + r.low ≤ u := by
  simp [allows, Option.all_eq_true]

theorem allowed_map (rows : List LinearRow) (f : LinearRow → Int) (g : LinearRow → Reach) :
    allowed rows (rows.map f) (rows.map g) = rows.all fun row => row.allows (f row) (g row) := by
  induction rows with
  | nil => rfl
  | cons row rows ih =>
      simp only [List.map_cons, allowed, List.all_cons] at ih ⊢
      rw [← ih]

theorem drop_succ_of_drop {ds rest : List Domain} {d : Domain} {k : Nat}
    (h : ds.drop k = d :: rest) : ds.drop (k + 1) = rest := by
  rw [← List.tail_drop, h, List.tail_cons]

theorem lt_length_of_drop {ds rest : List Domain} {d : Domain} {k : Nat}
    (h : ds.drop k = d :: rest) : k < ds.length :=
  List.length_lt_of_drop_ne_nil (h ▸ List.cons_ne_nil d rest)

namespace Problem

variable (p : Problem)

def rowReachFrom (k : Nat) : List Reach :=
  p.rows.map fun row => reach (row.coefficients.drop k) (p.domains.drop k)

def costReachFrom (k : Nat) : Reach := reach (p.objective.drop k) (p.domains.drop k)

def levelAt (k : Nat) (d : Domain) : Level :=
  { domain := d
    column := p.rows.map fun row => (row.coefficients.drop k).headD 0
    cost := (p.objective.drop k).headD 0
    rowReach := p.rowReachFrom (k + 1)
    costReach := p.costReachFrom (k + 1) }

def levelsFrom (k : Nat) : List Level :=
  Search.levels (p.domains.drop k) (p.rows.map fun row => row.coefficients.drop k)
    (p.objective.drop k)

theorem levelsFrom_nil {k : Nat} (h : p.domains.drop k = []) : p.levelsFrom k = [] := by
  rw [levelsFrom, h, Search.levels]

theorem levelsFrom_cons {k : Nat} {d : Domain} {ds : List Domain} (h : p.domains.drop k = d :: ds) :
    p.levelsFrom k = p.levelAt k d :: p.levelsFrom (k + 1) := by
  have hds : ds = p.domains.drop (k + 1) := (drop_succ_of_drop h).symm
  simp only [levelsFrom, h, Search.levels, levelAt, rowReachFrom, costReachFrom, ← hds,
    List.map_map, Function.comp_def, List.tail_drop]

/-- The feasible points that begin with `x`, in order. -/
def extensions (x : List Int) : List (List Int) :=
  ((assignments (p.domains.drop x.length)).map (x ++ ·)).filter p.satisfiedBy

theorem extensions_root : p.extensions [] = p.solutions := by simp [extensions, solutions]

theorem extensions_leaf {x : List Int} (h : p.domains.drop x.length = []) :
    p.extensions x = if p.satisfiedBy x then [x] else [] := by
  simp [extensions, h, assignments, List.filter_cons]

theorem extensions_step {x : List Int} {d : Domain} {ds : List Domain}
    (h : p.domains.drop x.length = d :: ds) :
    p.extensions x = d.values.flatMap fun v => p.extensions (x ++ [v]) := by
  have hds : p.domains.drop (x.length + 1) = ds := drop_succ_of_drop h
  simp only [extensions, h, assignments, List.map_flatMap, List.filter_flatMap, List.map_map,
    Function.comp_def, List.length_append, List.length_singleton, hds, List.append_assoc,
    List.singleton_append]

variable {p}

theorem dot_extension {x y : List Int} (cs : List Int) (h : y ∈ p.extensions x) :
    dot cs x + (reach (cs.drop x.length) (p.domains.drop x.length)).low ≤ dot cs y ∧
      dot cs y ≤ dot cs x + (reach (cs.drop x.length) (p.domains.drop x.length)).high := by
  obtain ⟨hy, -⟩ := List.mem_filter.mp h
  obtain ⟨z, hz, rfl⟩ := List.mem_map.mp hy
  exact dot_append_encloses cs (mem_assignments.mp hz)

theorem holds_of_mem_extensions {x y : List Int} {row : LinearRow} (h : y ∈ p.extensions x)
    (hrow : row ∈ p.rows) : row.holds y = true :=
  List.all_eq_true.mp (List.mem_filter.mp h).2 row hrow

end Problem

end LinOpt.Search
