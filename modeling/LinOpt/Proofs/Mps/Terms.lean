import LinOpt.Proofs.Mps.Columns
import LinOpt.Proofs.Mps.ReadsBack

namespace LinOpt.Mps

theorem filter_lt_append {ts : List (Nat × Double)} (h : ts.Pairwise fun t u => t.1 ≤ u.1) (n : Nat) :
    ts.filter (fun t => decide (t.1 < n)) ++ ts.filter (fun t => !decide (t.1 < n)) = ts := by
  induction ts with
  | nil => rfl
  | cons t ts ih =>
      rw [List.pairwise_cons] at h
      by_cases hn : t.1 < n
      · rw [List.filter_cons_of_pos (by simpa using hn), List.filter_cons_of_neg (by simpa using hn),
          List.cons_append, ih h.2]
      · have hall : ∀ u ∈ ts, ¬ u.1 < n := fun u hu hlt => hn (Nat.lt_of_le_of_lt (h.1 u hu) hlt)
        rw [List.filter_cons_of_neg (by simpa using hn), List.filter_cons_of_pos (by simpa using hn),
          List.filter_eq_nil_iff.mpr (by simpa using hall), List.nil_append,
          List.filter_eq_self.mpr (by simpa using hall)]

theorem eq_flatMap_of_sorted {ts : List (Nat × Double)} {n : Nat}
    (h : ts.Pairwise fun t u => t.1 ≤ u.1) (hlt : ∀ t ∈ ts, t.1 < n) :
    ts = (List.range n).flatMap fun j => ts.filter (·.1 == j) := by
  induction n generalizing ts with
  | zero =>
      cases ts with
      | nil => rfl
      | cons t ts => exact absurd (hlt t List.mem_cons_self) (Nat.not_lt_zero _)
  | succ n ih =>
      have hlow : (ts.filter fun t => decide (t.1 < n)) = _ :=
        ih (h.filter _) fun t ht => of_decide_eq_true (List.mem_filter.mp ht).2
      have hhigh : ts.filter (fun t => !decide (t.1 < n)) = ts.filter (·.1 == n) := by
        apply List.filter_congr
        intro t ht
        have := hlt t ht
        by_cases hn : t.1 = n
        · simp [hn]
        · have : t.1 < n := by omega
          simp [hn, this]
      have hfilter : ((List.range n).flatMap fun j =>
          (ts.filter fun t => decide (t.1 < n)).filter (·.1 == j)) =
          (List.range n).flatMap fun j => ts.filter (·.1 == j) := by
        apply List.flatMap_congr
        intro j hj
        rw [List.filter_filter]
        apply List.filter_congr
        intro t _
        by_cases htj : t.1 = j
        · simp [htj, List.mem_range.mp hj]
        · simp [htj]
      rw [List.range_succ, List.flatMap_append, ← hfilter, ← hlow, List.flatMap_singleton, ← hhigh,
        filter_lt_append h]

section Sorting

variable (ts : List (Nat × Double))

theorem le_trans_column (t u v : Nat × Double) (h : decide (t.1 ≤ u.1) = true)
    (h' : decide (u.1 ≤ v.1) = true) : decide (t.1 ≤ v.1) = true :=
  decide_eq_true (Nat.le_trans (of_decide_eq_true h) (of_decide_eq_true h'))

theorem le_total_column (t u : Nat × Double) : (decide (t.1 ≤ u.1) || decide (u.1 ≤ t.1)) = true := by
  simp only [Bool.or_eq_true, decide_eq_true_eq]
  exact Nat.le_total _ _

/-- Sorting is stable: the terms of one column stay in order. -/
theorem filter_mergeSort (j : Nat) : (ts.mergeSort fun t u => t.1 ≤ u.1).filter (·.1 == j) =
    ts.filter (·.1 == j) := by
  have hequal : (ts.filter (·.1 == j)).Pairwise fun t u => decide (t.1 ≤ u.1) = true := by
    apply List.pairwise_of_forall_mem_list
    intro t ht u hu
    have ht' := eq_of_beq (List.mem_filter.mp ht).2
    have hu' := eq_of_beq (List.mem_filter.mp hu).2
    exact decide_eq_true (Nat.le_of_eq (ht'.trans hu'.symm))
  have hsub := (List.sublist_mergeSort le_trans_column le_total_column hequal
    List.filter_sublist).filter (·.1 == j)
  rw [List.filter_filter] at hsub
  simp only [Bool.and_self] at hsub
  have hperm := List.mergeSort_perm ts fun t u => decide (t.1 ≤ u.1)
  exact (hsub.eq_of_length (hperm.filter _).length_eq.symm).symm

theorem mergeSort_eq_flatMap {n : Nat} (hlt : ∀ t ∈ ts, t.1 < n) :
    (ts.mergeSort fun t u => t.1 ≤ u.1) =
      (List.range n).flatMap fun j => ts.filter (·.1 == j) := by
  have hperm := List.mergeSort_perm ts fun t u => decide (t.1 ≤ u.1)
  have hsorted := List.pairwise_mergeSort le_trans_column le_total_column ts
  rw [eq_flatMap_of_sorted (n := n) (hsorted.imp of_decide_eq_true)
    fun t ht => hlt t (hperm.mem_iff.mp ht)]
  exact List.flatMap_congr fun j _ => filter_mergeSort ts j

end Sorting

variable {p : Program}

theorem cost_of_le (hp : Writable p) {j : Nat} (hj : p.columns.length ≤ j) : p.cost j = .zero := by
  have hnone : p.objective.filter (·.1 == j) = [] := by
    apply List.filter_eq_nil_iff.mpr
    intro t ht heq
    have := hp.objective_lt t ht
    rw [eq_of_beq heq] at this
    omega
  rw [Program.cost, hnone, List.foldl_nil]

theorem isNaN_cost (hp : Writable p) (j : Nat) : (p.cost j).isNaN = false := by
  rcases Nat.lt_or_ge j p.columns.length with hj | hj
  · exact hp.costs j hj
  · rw [cost_of_le hp hj]
    rfl

def coefficientsIn (j : Nat) (r : Row) : List Double := (r.terms.filter (·.1 == j)).map (·.2)

theorem columnEntries_eq (p : Program) (j : Nat) :
    columnEntries p j = (if p.cost j == .zero then [] else [(objectiveName, p.cost j)]) ++
      entriesOf (coefficientsIn j) p.rows := by
  simp only [columnEntries, entriesOf, coefficientsIn, List.map_map]
  rfl

theorem mem_columnEntries {j : Nat} {e : String × Double} (he : e ∈ columnEntries p j) :
    e = (objectiveName, p.cost j) ∨ ∃ r ∈ p.rows, e.1 = r.name ∧ ∃ t ∈ r.terms, t.2 = e.2 := by
  rw [columnEntries_eq] at he
  rcases List.mem_append.mp he with he | he
  · by_cases hzero : p.cost j == .zero
    · simp [hzero] at he
    · rw [if_neg hzero, List.mem_singleton] at he
      exact .inl he
  · obtain ⟨r, hr, hname, hx⟩ := mem_entriesOf.mp he
    obtain ⟨t, ht, hvalue⟩ := List.mem_map.mp hx
    exact .inr ⟨r, hr, hname, t, (List.mem_filter.mp ht).1, hvalue⟩

theorem enterable_columnEntries (hp : Writable p) (hword : ∀ r ∈ p.rows, Text.isWord r.name = true)
    (j : Nat) :
    ∀ e ∈ columnEntries p j, Enterable (p.rows.map (·.name)) e := by
  intro e he
  rcases mem_columnEntries he with rfl | ⟨r, hr, hname, t, ht, hvalue⟩
  · exact enterable_objective (toNumber_text (isNaN_cost hp j))
  · refine ⟨.inr (hname ▸ List.mem_map_of_mem hr), hname ▸ hword r hr, hname ▸ hp.no_marker r hr, ?_⟩
    rw [← hvalue]
    exact toNumber_text (hp.coefficients r hr t ht)

theorem termsFor_row (hnodup : (p.rows.map (·.name)).Nodup)
    (hobj : objectiveName ∉ p.rows.map (·.name)) {r : Row} (hr : r ∈ p.rows) (j : Nat) :
    termsFor r.name j (listed (columnEntries p j)) = r.terms.filter (·.1 == j) := by
  have hne : ¬ objectiveName = r.name := fun h => hobj (h ▸ List.mem_map_of_mem hr)
  have hlisted : termsFor r.name j (listed (columnEntries p j)) =
      termsFor r.name j (columnEntries p j) := by
    cases columnEntries p j with
    | nil => simp [listed, termsFor, hne]
    | cons e es => rfl
  have hcost : termsFor r.name j (if p.cost j == .zero then [] else [(objectiveName, p.cost j)]) =
      [] := by
    split
    · rfl
    · simp [termsFor, hne]
  rw [hlisted, columnEntries_eq, termsFor_append, hcost, List.nil_append, termsFor,
    filter_entriesOf hnodup hr, coefficientsIn, List.map_map, List.map_map]
  refine (List.map_congr_left fun t ht => ?_).trans (List.map_id _)
  exact Prod.ext (eq_of_beq (List.mem_filter.mp ht).2).symm rfl

theorem entriesOf_coefficientsIn_eq_nil {j : Nat} :
    entriesOf (coefficientsIn j) p.rows = [] ↔
      (p.rows.any fun r => r.terms.any (·.1 == j)) = false := by
  rw [entriesOf, List.flatMap_eq_nil_iff, List.any_eq_false]
  apply forall₂_congr
  intro r _
  rw [List.map_eq_nil_iff, coefficientsIn, List.map_eq_nil_iff, List.filter_eq_nil_iff,
    List.any_eq_true]
  simp only [not_exists, not_and]

theorem termsFor_objective (hobj : objectiveName ∉ p.rows.map (·.name)) (j : Nat) :
    termsFor objectiveName j (listed (columnEntries p j)) = costBack p j := by
  have hrows : termsFor objectiveName j (entriesOf (coefficientsIn j) p.rows) = [] := by
    rw [termsFor, filter_entriesOf_of_not_mem hobj, List.map_nil]
  rw [columnEntries_eq, costBack]
  by_cases hzero : p.cost j == .zero
  · rw [if_pos hzero, if_pos hzero, List.nil_append]
    cases hentries : entriesOf (coefficientsIn j) p.rows with
    -- a column that is nowhere is listed with a zero cost, or nothing would declare it
    | nil =>
        rw [entriesOf_coefficientsIn_eq_nil.mp hentries]
        rfl
    | cons e es =>
        have hused : (p.rows.any fun r => r.terms.any (·.1 == j)) = true := by
          apply Bool.of_not_eq_false
          intro h
          rw [entriesOf_coefficientsIn_eq_nil.mpr h] at hentries
          cases hentries
        rw [hused, if_pos rfl, ← hrows, hentries]
        rfl
  · rw [if_neg hzero, if_neg hzero]
    have happend := termsFor_append objectiveName j [(objectiveName, p.cost j)]
      (entriesOf (coefficientsIn j) p.rows)
    rw [hrows, List.append_nil] at happend
    exact happend

theorem filter_costBack (p : Program) (i j : Nat) :
    (costBack p i).filter (·.1 == j) = if i = j then costBack p i else [] := by
  have hkey : ∀ t ∈ costBack p i, t.1 = i := by
    intro t ht
    rw [costBack] at ht
    split at ht
    · split at ht
      · cases ht
      · rw [List.mem_singleton.mp ht]
    · rw [List.mem_singleton.mp ht]
  split
  case isTrue h => exact List.filter_eq_self.mpr fun t ht => beq_iff_eq.mpr ((hkey t ht).trans h)
  case isFalse h =>
    exact List.filter_eq_nil_iff.mpr fun t ht heq => h ((hkey t ht).symm.trans (eq_of_beq heq))

theorem foldl_costBack (hp : Writable p) (j : Nat) :
    ((costBack p j).foldl (fun s t => s + t.2) Double.zero == p.cost j) = true := by
  have hnan := isNaN_cost hp j
  by_cases hzero : p.cost j == .zero
  · have hsum : (costBack p j).foldl (fun s t => s + t.2) Double.zero = .zero := by
      rw [costBack, if_pos hzero]
      split <;> rfl
    rw [hsum]
    exact Double.numEq_symm hzero
  · rw [costBack, if_neg hzero, List.foldl_cons, List.foldl_nil,
      Double.zero_add hnan (Bool.eq_false_iff.mpr hzero)]
    exact Double.numEq_refl hnan

theorem flatMap_range_ite {α : Type} (f : Nat → List α) (j n : Nat) :
    ((List.range n).flatMap fun i => if i = j then f i else []) = if j < n then f j else [] := by
  induction n with
  | zero => rfl
  | succ n ih =>
      rw [List.range_succ, List.flatMap_append, ih, List.flatMap_singleton]
      by_cases hj : n = j
      · simp [hj]
      · by_cases hlt : j < n
        · simp [hj, hlt, Nat.lt_succ_of_lt hlt]
        · simp [hj, hlt, show ¬ j < n + 1 by omega]

theorem cost_back (hp : Writable p) {q : Program}
    (hq : q.objective = (List.range p.columns.length).flatMap (costBack p)) (j : Nat) :
    (q.cost j == p.cost j) = true := by
  rw [Program.cost, hq, List.filter_flatMap]
  simp only [filter_costBack, flatMap_range_ite]
  split
  · exact foldl_costBack hp j
  · rw [cost_of_le hp (by omega)]
    rfl

end LinOpt.Mps
