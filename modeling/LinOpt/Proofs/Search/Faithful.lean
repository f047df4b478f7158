import LinOpt.Proofs.Double.Value
import LinOpt.Proofs.Search.Accepted
import Mathlib.Algebra.BigOperators.Group.List.Basic

namespace LinOpt.Search

/-- The weighted sum of a row or of the objective at a point, without any rounding. -/
def exactSum (terms : List (Nat × Double)) (x : List Int) : ℚ :=
  (terms.map fun t => t.2.value * ((x.getD t.1 0 : Int) : ℚ)).sum

/-- A finite number in the range of 128-bit integers. -/
def Within128 (x : Double) : Prop := x.isFinite = true ∧ -2 ^ 127 ≤ x.value ∧ x.value < 2 ^ 127

instance (x : Double) : Decidable (Within128 x) := inferInstanceAs (Decidable (_ ∧ _ ∧ _))

/-- Coefficients within 128 bits, and bounds that are infinite on their own side only. -/
structure UncutRow (r : Row) : Prop where
  terms : ∀ t ∈ r.terms, Within128 t.2
  lower : r.lower = .negInfinity ∨ Within128 r.lower
  upper : r.upper = .infinity ∨ Within128 r.upper

structure Uncut (p : Program) : Prop where
  rows : ∀ r ∈ p.rows, UncutRow r
  objective : ∀ t ∈ p.objective, Within128 t.2
  offset : Within128 p.offset

/-- A finite number without a fraction. -/
def IsWhole (x : Double) : Prop := ∃ n : Int, x.Holds n

structure WholeRow (r : Row) : Prop where
  terms : ∀ t ∈ r.terms, IsWhole t.2
  lower : r.lower.isInfinite = true ∨ IsWhole r.lower
  upper : r.upper.isInfinite = true ∨ IsWhole r.upper

structure Whole (p : Program) : Prop where
  rows : ∀ r ∈ p.rows, WholeRow r
  objective : ∀ t ∈ p.objective, IsWhole t.2
  offset : IsWhole p.offset

/-- The value is between the bounds of the column. -/
def WithinColumn (c : Column) (v : Int) : Prop :=
  c.lower.extended ≤ Double.extend v ∧ Double.extend v ≤ c.upper.extended

/-- The exact sum of the row is between its bounds. -/
def Respected (r : Row) (x : List Int) : Prop :=
  r.lower.extended ≤ Double.extend (exactSum r.terms x) ∧
    Double.extend (exactSum r.terms x) ≤ r.upper.extended

instance (r : Row) (x : List Int) : Decidable (Respected r x) := inferInstanceAs (Decidable (_ ∧ _))

/-- The integer problem is the program, at all points with one value for each column. -/
structure Represents (p : Program) (q : Problem) : Prop where
  domains : ∀ x : List Int, List.Forall₂ Domain.Contains q.domains x ↔
    List.Forall₂ WithinColumn p.columns x
  rows : List.Forall₂ (fun r row => ∀ x : List Int, x.length = p.columns.length →
    (row.holds x = true ↔ Respected r x)) p.rows q.rows
  objective : ∀ x : List Int, x.length = p.columns.length →
    q.objectiveValue x = p.offset.value + exactSum p.objective x

variable {p : Program} {q : Problem}

theorem whole_of_integral? {x : Double} {n : Int} (h : integral? x = some n) : IsWhole x := by
  obtain ⟨m, hm, -⟩ := Option.map_eq_some_iff.mp h
  exact ⟨m, Double.whole?_eq_some.mp hm⟩

theorem integral?_value {x : Double} {n : Int} (h : integral? x = some n) (hx : Within128 x) :
    x.value = n := by
  obtain ⟨m, hm, hn⟩ := Option.map_eq_some_iff.mp h
  obtain ⟨-, hvalue⟩ := Double.whole?_eq_some.mp hm
  rw [Within128, hvalue] at hx
  have hlow : -2 ^ 127 ≤ m := by exact_mod_cast hx.2.1
  have hhigh : m < 2 ^ 127 := by exact_mod_cast hx.2.2
  rw [hvalue, ← hn, smallestInt, largestInt, Int.min_eq_right (by omega), Int.max_eq_right hlow]

theorem dot_set {sums x : List Int} (h : sums.length = x.length) (i : Nat) (c : Int) :
    dot (sums.set i (sums.getD i 0 + c)) x = dot sums x + c * x.getD i 0 := by
  induction sums generalizing x i with
  | nil =>
      rw [List.length_nil, eq_comm, List.length_eq_zero_iff] at h
      simp [h]
  | cons s sums ih =>
      obtain ⟨v, x, rfl⟩ := List.exists_cons_of_length_eq_add_one h.symm
      cases i with
      | zero =>
          simp only [List.set_cons_zero, List.getD_cons_zero, dot]
          ring
      | succ i =>
          simp only [List.set_cons_succ, List.getD_cons_succ, dot]
          rw [ih (Nat.succ.inj h)]
          ring

theorem addTerm_eq_ok {fraction : Double → Refusal} {overflow : Refusal} {sums sums' : List Int}
    {t : Nat × Double} (h : addTerm fraction overflow sums t = .ok sums') :
    ∃ c, integral? t.2 = some c ∧ sums' = sums.set t.1 (sums.getD t.1 0 + c) := by
  rw [addTerm] at h
  cases hc : integral? t.2 with
  | none =>
      rw [hc] at h
      cases h
  | some c =>
      rw [hc] at h
      dsimp only at h
      split at h
      · cases h
        exact ⟨c, rfl, rfl⟩
      · cases h

theorem foldlM_addTerm {fraction : Double → Refusal} {overflow : Refusal} {ts : List (Nat × Double)}
    {sums cs : List Int} (h : ts.foldlM (addTerm fraction overflow) sums = .ok cs) :
    cs.length = sums.length ∧ (∀ t ∈ ts, IsWhole t.2) ∧
      ((∀ t ∈ ts, Within128 t.2) → ∀ x : List Int, x.length = sums.length →
        (dot cs x : ℚ) = dot sums x + exactSum ts x) := by
  induction ts generalizing sums with
  | nil =>
      cases h
      exact ⟨rfl, List.forall_mem_nil _, fun _ x _ => by simp [exactSum]⟩
  | cons t ts ih =>
      rw [List.foldlM_cons] at h
      obtain ⟨sums', hstep, hrest⟩ := Except.bind_eq_ok.mp h
      obtain ⟨c, hc, rfl⟩ := addTerm_eq_ok hstep
      obtain ⟨hlen, hwhole, hdot⟩ := ih hrest
      rw [List.length_set] at hlen hdot
      refine ⟨hlen, List.forall_mem_cons.mpr ⟨whole_of_integral? hc, hwhole⟩, fun hin x hx => ?_⟩
      obtain ⟨ht, hts⟩ := List.forall_mem_cons.mp hin
      rw [hdot hts x hx, dot_set hx.symm, exactSum, exactSum, List.map_cons, List.sum_cons,
        integral?_value hc ht]
      push_cast
      ring

theorem dot_replicate_zero (n : Nat) (x : List Int) : dot (List.replicate n 0) x = 0 := by
  induction n generalizing x with
  | zero => rfl
  | succ n ih =>
      cases x with
      | nil => rfl
      | cons v x => rw [List.replicate_succ, dot, ih, Int.zero_mul, Int.zero_add]

theorem whole_of_gather {fraction : Double → Refusal} {overflow : Refusal} {n : Nat}
    {ts : List (Nat × Double)} {cs : List Int} (h : gather fraction overflow n ts = .ok cs) :
    ∀ t ∈ ts, IsWhole t.2 :=
  (foldlM_addTerm h).2.1

theorem dot_gather {fraction : Double → Refusal} {overflow : Refusal} {n : Nat}
    {ts : List (Nat × Double)} {cs : List Int} (h : gather fraction overflow n ts = .ok cs)
    (hts : ∀ t ∈ ts, Within128 t.2) {x : List Int} (hx : x.length = n) :
    (dot cs x : ℚ) = exactSum ts x := by
  have hdot := (foldlM_addTerm h).2.2 hts x (by rw [hx, List.length_replicate])
  rwa [dot_replicate_zero, Int.cast_zero, zero_add] at hdot

theorem bound_eq_ok {x : Double} {b : Option Int} (h : bound x = .ok b) :
    (x.isInfinite = true ∧ b = none) ∨ (∃ n, integral? x = some n ∧ b = some n) := by
  rw [bound] at h
  split at h
  case isTrue hinf =>
    cases h
    exact .inl ⟨hinf, rfl⟩
  case isFalse =>
    split at h
    case h_1 n hn =>
      cases h
      exact .inr ⟨n, hn, rfl⟩
    case h_2 => cases h

theorem bound_of_within {x : Double} {b : Option Int} (h : bound x = .ok b) (hx : Within128 x) :
    ∃ n : Int, b = some n ∧ x.value = n := by
  obtain ⟨hinf, -⟩ | ⟨n, hn, hb⟩ := bound_eq_ok h
  · rw [Double.isInfinite_of_isFinite hx.1] at hinf
    cases hinf
  · exact ⟨n, hb, integral?_value hn hx⟩

theorem lower_bound {x : Double} {b : Option Int} (h : bound x = .ok b)
    (hx : x = .negInfinity ∨ Within128 x) (s : Int) :
    b.all (fun l => decide (l ≤ s)) = true ↔ x.extended ≤ Double.extend s := by
  rcases hx with rfl | hx
  · cases h
    exact iff_of_true rfl bot_le
  · obtain ⟨n, rfl, hn⟩ := bound_of_within h hx
    rw [Option.all_some, decide_eq_true_iff, Double.extended_le_extend hx.1, hn, Int.cast_le]

theorem upper_bound {x : Double} {b : Option Int} (h : bound x = .ok b)
    (hx : x = .infinity ∨ Within128 x) (s : Int) :
    b.all (fun u => decide (s ≤ u)) = true ↔ Double.extend s ≤ x.extended := by
  rcases hx with rfl | hx
  · cases h
    exact iff_of_true rfl le_top
  · obtain ⟨n, rfl, hn⟩ := bound_of_within h hx
    rw [Option.all_some, decide_eq_true_iff, Double.extend_le_extended hx.1, hn, Int.cast_le]

theorem whole_of_bound {x : Double} {b : Option Int} (h : bound x = .ok b) :
    x.isInfinite = true ∨ IsWhole x :=
  (bound_eq_ok h).imp And.left fun ⟨_, hn, _⟩ => whole_of_integral? hn

theorem AcceptedColumn.contains_iff {c : Column} {d : Domain} (h : AcceptedColumn c d) (v : Int) :
    d.Contains v ↔ WithinColumn c v := by
  obtain ⟨hlower, hl⟩ := Double.ceil?_eq_some.mp h.lower
  obtain ⟨hupper, hu⟩ := Double.floor?_eq_some.mp h.upper
  rw [Domain.Contains, WithinColumn, Double.extended_le_extend hlower,
    Double.extend_le_extended hupper, ← hl, ← hu, Int.ceil_le, Int.le_floor]

theorem forall₂_contains {cs : List Column} {ds : List Domain}
    (h : List.Forall₂ AcceptedColumn cs ds) (x : List Int) :
    List.Forall₂ Domain.Contains ds x ↔ List.Forall₂ WithinColumn cs x := by
  induction h generalizing x with
  | nil => rw [List.forall₂_nil_left_iff, List.forall₂_nil_left_iff]
  | cons hcd _ ih => simp only [List.forall₂_cons_left_iff, hcd.contains_iff, ih]

theorem AcceptedRow.holds_iff {ds : List Domain} {r : Row} {row : LinearRow}
    (h : AcceptedRow ds r row) (hr : UncutRow r) {x : List Int} (hx : x.length = ds.length) :
    row.holds x = true ↔ Respected r x := by
  rw [LinearRow.holds, Bool.and_eq_true, lower_bound h.lower hr.lower, upper_bound h.upper hr.upper,
    dot_gather h.coefficients hr.terms hx, Respected]

theorem AcceptedRow.whole {ds : List Domain} {r : Row} {row : LinearRow}
    (h : AcceptedRow ds r row) : WholeRow r :=
  ⟨whole_of_gather h.coefficients, whole_of_bound h.lower, whole_of_bound h.upper⟩

theorem Accepted.rows_iff (h : Accepted p q) (hp : ∀ r ∈ p.rows, UncutRow r) :
    List.Forall₂ (fun r row => ∀ x : List Int, x.length = p.columns.length →
      (row.holds x = true ↔ Respected r x)) p.rows q.rows := by
  rw [h.domains.length_eq]
  exact ((List.forall₂_and_left _ _).mpr ⟨hp, h.rows⟩).imp fun _ _ ⟨hr, hrow⟩ _ hx =>
    hrow.holds_iff hr hx

theorem Accepted.whole (h : Accepted p q) : Whole p :=
  ⟨forall_of_forall₂ (List.Forall₂.flip (R := fun row r => AcceptedRow q.domains r row) h.rows)
    fun _ _ hr => hr.whole, whole_of_gather h.objective, whole_of_integral? h.offset⟩

/-- An accepted program has no number with a fraction, its integer problem has the domains of its
columns, and if no number is cut off at 128 bits, the problem is the program. -/
theorem ofProgram_represents (h : Problem.ofProgram p = .ok q) :
    Whole p ∧
      (∀ x : List Int, List.Forall₂ Domain.Contains q.domains x ↔
        List.Forall₂ WithinColumn p.columns x) ∧
      (Uncut p → Represents p q) := by
  have hacc := ofProgram_accepted h
  have hdomains := forall₂_contains hacc.domains
  refine ⟨hacc.whole, hdomains, fun hcut => ⟨hdomains, hacc.rows_iff hcut.rows, ?_⟩⟩
  intro x hx
  rw [Problem.objectiveValue,
    ← dot_gather hacc.objective hcut.objective (hx.trans hacc.domains.length_eq),
    integral?_value hacc.offset hcut.offset, Int.cast_add, add_comm]

def cancellingProgram : Program where
  name := "cancelling"
  columns := [⟨"x", .ofInt (-5) / .ofInt 2, .ofInt 3, .integer⟩, ⟨"y", .zero, .one, .binary⟩]
  rows := [⟨"r", [(0, .ofInt (2 ^ 126)), (1, .ofInt 3), (0, .ofInt (-2 ^ 126)), (0, .one)],
    .ofInt (-2 ^ 127), .ofInt 2⟩]
  objective := [(1, .ofInt (-2))]
  offset := .ofInt 7
  maximize := false

def cancellingProblem : Problem where
  domains := [⟨-2, 3⟩, ⟨0, 1⟩]
  rows := [⟨[1, 3], some (-2 ^ 127), some 2⟩]
  objective := [0, -2]
  offset := 7
  maximize := false

theorem ofProgram_represents_cancelling :
    Problem.ofProgram cancellingProgram = .ok cancellingProblem ∧ Uncut cancellingProgram ∧
      Whole cancellingProgram ∧
      (∀ x : List Int, List.Forall₂ Domain.Contains cancellingProblem.domains x ↔
        List.Forall₂ WithinColumn cancellingProgram.columns x) ∧
      Represents cancellingProgram cancellingProblem := by
  have h : Problem.ofProgram cancellingProgram = .ok cancellingProblem := by decide +kernel
  have hcut : Uncut cancellingProgram := by
    refine ⟨List.forall_mem_singleton.mpr ⟨?_, .inr ?_, .inr ?_⟩, ?_, ?_⟩ <;> decide +kernel
  obtain ⟨hwhole, hdomains, hrepresents⟩ := ofProgram_represents h
  exact ⟨h, hcut, hwhole, hdomains, hrepresents hcut⟩

def cutProgram : Program where
  name := "cut"
  columns := [⟨"x", .zero, .one, .integer⟩]
  rows := [⟨"r", [(0, .ofInt (2 ^ 130))], .negInfinity, .ofInt (2 ^ 129)⟩]
  objective := []
  offset := .zero
  maximize := true

def cutProblem : Problem where
  domains := [⟨0, 1⟩]
  rows := [⟨[2 ^ 127 - 1], none, some (2 ^ 127 - 1)⟩]
  objective := [0]
  offset := 0
  maximize := true

/-- Both are cut off to the same number, and the row holds at a point where it does not. -/
theorem cut_row_holds : Problem.ofProgram cutProgram = .ok cutProblem ∧
    (∀ row ∈ cutProblem.rows, row.holds [1] = true) ∧
      ∀ r ∈ cutProgram.rows, ¬ Respected r [1] := by
  decide +kernel

end LinOpt.Search
