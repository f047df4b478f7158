import LinOpt.Double.Arithmetic
import LinOpt.Proofs.Double.Parts

namespace LinOpt.Double

variable {x y r : Double}

def numLe (x y : Double) : Bool := !x.isNaN && !y.isNaN && decide (x.units ≤ y.units)

theorem numEq_iff : (x == y) = true ↔ x.isNaN = false ∧ y.isNaN = false ∧ x.units = y.units := by
  rw [show (x == y) = numEq x y from rfl, numEq]
  simp [and_assoc]

theorem numLt_iff : x.numLt y = true ↔ x.isNaN = false ∧ y.isNaN = false ∧ x.units < y.units := by
  simp [numLt, and_assoc]

theorem numLe_iff : x.numLe y = true ↔ x.isNaN = false ∧ y.isNaN = false ∧ x.units ≤ y.units := by
  simp [numLe, and_assoc]

theorem numEq_refl (hx : x.isNaN = false) : (x == x) = true := numEq_iff.mpr ⟨hx, hx, rfl⟩

theorem numEq_symm (h : (x == y) = true) : (y == x) = true := by
  obtain ⟨hx, hy, hunits⟩ := numEq_iff.mp h
  exact numEq_iff.mpr ⟨hy, hx, hunits.symm⟩

theorem numEq_trans (h : (x == y) = true) (h' : (y == r) = true) : (x == r) = true := by
  obtain ⟨hx, -, hunits⟩ := numEq_iff.mp h
  obtain ⟨-, hr, hunits'⟩ := numEq_iff.mp h'
  exact numEq_iff.mpr ⟨hx, hr, hunits.trans hunits'⟩

theorem numLt_of_numLe (h : x.numLe y = true) (hne : (x == y) = false) : x.numLt y = true := by
  obtain ⟨hx, hy, hle⟩ := numLe_iff.mp h
  refine numLt_iff.mpr ⟨hx, hy, Int.lt_iff_le_and_ne.mpr ⟨hle, fun heq => ?_⟩⟩
  rw [numEq_iff.mpr ⟨hx, hy, heq⟩] at hne
  cases hne

theorem units_zero : zero.units = 0 := rfl

theorem isNaN_zero : zero.isNaN = false := rfl

theorem isNaN_ofParts {m : Nat} (hm : m ≤ infinite) (negative : Bool) :
    (ofParts negative m).isNaN = false := by
  rw [isNaN, magnitude_ofParts (Nat.lt_of_le_of_lt hm infinite_lt)]
  simpa using hm

theorem isNaN_infinity : infinity.isNaN = false := isNaN_ofParts (Nat.le_refl _) _

theorem isNaN_negInfinity : negInfinity.isNaN = false := isNaN_ofParts (Nat.le_refl _) _

theorem units_ofParts {m : Nat} (hm : m ≤ infinite) (negative : Bool) :
    (ofParts negative m).units = if negative then -(unitsOf m : Int) else unitsOf m := by
  have h := Nat.lt_of_le_of_lt hm infinite_lt
  rw [units, isNegative_ofParts h, magnitude_ofParts h]

theorem unitsOf_lt_two_pow (m : Nat) : unitsOf m < 2 ^ 52 * 2 ^ (m / 2 ^ 52) := by
  rw [unitsOf]
  split
  · rcases Nat.lt_or_ge m (2 ^ 52) with h | h
    · rw [Nat.div_eq_of_lt h]
      omega
    · rw [show m / 2 ^ 52 = 1 by omega]
      omega
  · obtain ⟨e, he⟩ : ∃ e, m / 2 ^ 52 = e + 1 := ⟨m / 2 ^ 52 - 1, by omega⟩
    rw [he, Nat.add_sub_cancel, Nat.pow_succ (m := e), Nat.mul_comm (2 ^ e) 2, ← Nat.mul_assoc]
    exact Nat.mul_lt_mul_of_pos_right (by omega) (Nat.two_pow_pos _)

theorem two_pow_le_unitsOf {m : Nat} (hm : 2 ^ 53 ≤ m) :
    2 ^ 52 * 2 ^ (m / 2 ^ 52 - 1) ≤ unitsOf m := by
  rw [unitsOf, if_neg (Nat.not_lt.mpr hm)]
  exact Nat.mul_le_mul_right _ (Nat.le_add_right _ _)

theorem unitsOf_lt_unitsOf {m n : Nat} (h : m < n) : unitsOf m < unitsOf n := by
  rcases Nat.lt_or_ge n (2 ^ 53) with hn | hn
  · rwa [unitsOf, unitsOf, if_pos (Nat.lt_trans h hn), if_pos hn]
  · rcases Nat.lt_or_eq_of_le (Nat.div_le_div_right (c := 2 ^ 52) (Nat.le_of_lt h)) with hlt | heq
    · have hstep : 2 ^ 52 * 2 ^ (m / 2 ^ 52) ≤ 2 ^ 52 * 2 ^ (n / 2 ^ 52 - 1) :=
        Nat.mul_le_mul_left _ (Nat.pow_le_pow_right (by decide) (by omega))
      exact Nat.lt_of_lt_of_le (unitsOf_lt_two_pow m) (Nat.le_trans hstep (two_pow_le_unitsOf hn))
    · rw [unitsOf, unitsOf, if_neg (by omega), if_neg (Nat.not_lt.mpr hn), heq]
      exact Nat.mul_lt_mul_of_pos_right (by omega) (Nat.two_pow_pos _)

theorem unitsOf_le_unitsOf {m n : Nat} : unitsOf m ≤ unitsOf n ↔ m ≤ n := by
  constructor
  · exact fun h => Nat.not_lt.mp fun hlt => Nat.not_lt.mpr h (unitsOf_lt_unitsOf hlt)
  · intro h
    rcases Nat.lt_or_eq_of_le h with hlt | rfl
    · exact Nat.le_of_lt (unitsOf_lt_unitsOf hlt)
    · exact Nat.le_refl _

theorem magnitude_eq_infinite (hx : x.isNaN = false) (hinf : x.isFinite = false) :
    x.magnitude = infinite := by
  have hle := magnitude_le_of_not_isNaN hx
  have hge : infinite ≤ x.magnitude := by simpa [isFinite] using hinf
  exact Nat.le_antisymm hle hge

theorem unitsOf_magnitude_le (hx : x.isNaN = false) : unitsOf x.magnitude ≤ unitsOf infinite :=
  unitsOf_le_unitsOf.mpr (magnitude_le_of_not_isNaN hx)

theorem infinity_or_negInfinity (hx : x.isNaN = false) (hinf : x.isFinite = false) :
    x = infinity ∨ x = negInfinity := by
  have hparts := ofParts_isNegative_magnitude x
  rw [magnitude_eq_infinite hx hinf] at hparts
  cases hneg : x.isNegative with
  | false => exact .inl (by rw [← hparts, hneg, infinity])
  | true => exact .inr (by rw [← hparts, hneg, negInfinity])

theorem eq_negInfinity_of_numLt (h : x.numLt y = true) (hinf : x.isFinite = false) :
    x = negInfinity := by
  obtain ⟨hx, hy, hlt⟩ := numLt_iff.mp h
  refine (infinity_or_negInfinity hx hinf).resolve_left ?_
  rintro rfl
  have hle := unitsOf_magnitude_le hy
  rw [infinity, units_ofParts (Nat.le_refl _), if_neg Bool.false_ne_true, units] at hlt
  split at hlt <;> omega

theorem eq_infinity_of_numLt (h : x.numLt y = true) (hinf : y.isFinite = false) :
    y = infinity := by
  obtain ⟨hx, hy, hlt⟩ := numLt_iff.mp h
  refine (infinity_or_negInfinity hy hinf).resolve_right ?_
  rintro rfl
  have hle := unitsOf_magnitude_le hx
  rw [negInfinity, units_ofParts (Nat.le_refl _), if_pos rfl, units] at hlt
  split at hlt <;> omega

theorem isNegative_neg (x : Double) : (-x).isNegative = !x.isNegative :=
  isNegative_ofParts x.magnitude_lt _

theorem magnitude_neg (x : Double) : (-x).magnitude = x.magnitude :=
  magnitude_ofParts x.magnitude_lt _

theorem isNaN_neg (x : Double) : (-x).isNaN = x.isNaN := by
  rw [isNaN, isNaN, magnitude_neg]

theorem neg_neg (x : Double) : - -x = x := by
  rw [show - -x = ofParts (!(-x).isNegative) (-x).magnitude from rfl, isNegative_neg,
    magnitude_neg, Bool.not_not, ofParts_isNegative_magnitude]

theorem units_neg (x : Double) : (-x).units = -x.units := by
  rw [units, units, isNegative_neg, magnitude_neg]
  cases x.isNegative with
  | true => exact (Int.neg_neg _).symm
  | false => rfl

theorem nearestMagnitude_le (num den : Nat) : nearestMagnitude num den ≤ infinite :=
  Nat.min_le_right _ _

theorem isNaN_of_isFinite (hx : x.isFinite = true) : x.isNaN = false := by
  simp only [isFinite, isNaN, decide_eq_true_eq, decide_eq_false_iff_not] at hx ⊢
  omega

theorem isInfinite_of_isFinite (hx : x.isFinite = true) : x.isInfinite = false := by
  simp only [isFinite, isInfinite, decide_eq_true_eq, decide_eq_false_iff_not] at hx ⊢
  omega

theorem add_of_isFinite (hx : x.isFinite = true) (hy : y.isFinite = true) :
    x + y = if x.units + y.units = 0 then ofParts (x.isNegative && y.isNegative) 0
      else nearest (decide (x.units + y.units < 0)) (x.units + y.units).natAbs 1 := by
  rw [show x + y = add x y from rfl, add]
  simp only [isNaN_of_isFinite hx, isNaN_of_isFinite hy, isInfinite_of_isFinite hx,
    isInfinite_of_isFinite hy, Bool.false_eq_true, if_false]

theorem add_of_isInfinite (hx : x.isFinite = true) (hy : y.isInfinite = true) : x + y = y := by
  have hnan : y.isNaN = false := by
    simp only [isInfinite, isNaN, decide_eq_true_eq, decide_eq_false_iff_not] at hy ⊢
    omega
  rw [show x + y = add x y from rfl, add]
  simp only [isNaN_of_isFinite hx, hnan, isInfinite_of_isFinite hx, hy, Bool.false_eq_true, if_false,
    if_true]

theorem isFinite_or_isInfinite (hx : x.isNaN = false) : x.isFinite = true ∨ x.isInfinite = true := by
  cases hfin : x.isFinite with
  | true => exact .inl rfl
  | false => exact .inr (decide_eq_true (magnitude_eq_infinite hx hfin))

theorem isNaN_add (hx : x.isFinite = true) (hy : y.isNaN = false) : (x + y).isNaN = false := by
  rcases isFinite_or_isInfinite hy with h | h
  · rw [add_of_isFinite hx h]
    split
    · exact isNaN_ofParts (Nat.zero_le _) _
    · exact isNaN_ofParts (nearestMagnitude_le _ _) _
  · rwa [add_of_isInfinite hx h]

theorem sub_of_isFinite (hx : x.isFinite = true) (hy : y.isFinite = true) : x - y = x + -y := by
  rw [show x - y = sub x y from rfl, sub]
  simp only [isNaN_of_isFinite hx, isNaN_of_isFinite hy, Bool.false_eq_true, if_false]
  rfl

theorem isNaN_sub (hx : x.isFinite = true) (hy : y.isFinite = true) : (x - y).isNaN = false := by
  rw [sub_of_isFinite hx hy]
  exact isNaN_add hx ((isNaN_neg y).trans (isNaN_of_isFinite hy))

theorem isFinite_of_units_eq_zero (hx : x.isNaN = false) (h : x.units = 0) : x.isFinite = true := by
  cases hfin : x.isFinite with
  | true => rfl
  | false =>
      have hpos := unitsOf_lt_unitsOf (show 0 < infinite by decide)
      rw [units, magnitude_eq_infinite hx hfin] at h
      split at h <;> omega

theorem zero_add_numEq (hx : (x == zero) = true) (hr : r.isNaN = false) :
    (zero + r == x + r) = true := by
  obtain ⟨hnan, -, hunits⟩ := numEq_iff.mp hx
  rw [units_zero] at hunits
  have hfin := isFinite_of_units_eq_zero hnan hunits
  rcases isFinite_or_isInfinite hr with h | h
  · rw [add_of_isFinite rfl h, add_of_isFinite hfin h, hunits, units_zero]
    split
    · refine numEq_iff.mpr ⟨isNaN_ofParts (Nat.zero_le _) _, isNaN_ofParts (Nat.zero_le _) _, ?_⟩
      rw [units_ofParts (Nat.zero_le _), units_ofParts (Nat.zero_le _)]
      split <;> split <;> rfl
    · exact numEq_refl (isNaN_ofParts (nearestMagnitude_le _ _) _)
  · rw [add_of_isInfinite rfl h, add_of_isInfinite hfin h]
    exact numEq_refl hr

theorem nearest_units (hx : x.isFinite = true) (hne : x.units ≠ 0) :
    nearest (decide (x.units < 0)) x.units.natAbs 1 = x := by
  have hm : x.magnitude < infinite := by simpa [isFinite] using hx
  have habs : x.units.natAbs = unitsOf x.magnitude := by
    rw [units]
    split <;> omega
  have hneg : decide (x.units < 0) = x.isNegative := by
    rw [units] at hne ⊢
    cases h : x.isNegative with
    | true =>
        rw [h, if_pos rfl] at hne
        exact decide_eq_true (show -(unitsOf x.magnitude : Int) < 0 by omega)
    | false => exact decide_eq_false (show ¬ (unitsOf x.magnitude : Int) < 0 by omega)
  have hexact := nearestMagnitude_unitsOf hm Nat.one_pos
  rw [Nat.mul_one] at hexact
  rw [nearest, habs, hneg, hexact, ofParts_isNegative_magnitude]

theorem zero_add (hr : r.isNaN = false) (hne : (r == zero) = false) : zero + r = r := by
  rcases isFinite_or_isInfinite hr with h | h
  · have hunits : r.units ≠ 0 := by
      intro h0
      have heq := numEq_iff.mpr ⟨hr, isNaN_zero, h0.trans units_zero.symm⟩
      rw [hne] at heq
      cases heq
    rw [add_of_isFinite rfl h, units_zero, Int.zero_add, if_neg hunits,
      nearest_units h hunits]
  · exact add_of_isInfinite rfl h

theorem isFinite_neg (x : Double) : (-x).isFinite = x.isFinite := by
  rw [isFinite, isFinite, magnitude_neg]

theorem sub_eq_nearest (hx : x.isFinite = true) (hy : y.isFinite = true) (h : x.numLt y = true) :
    y - x = nearest false (y.units - x.units).natAbs 1 := by
  obtain ⟨-, -, hlt⟩ := numLt_iff.mp h
  have hneg : (-x).isFinite = true := (isFinite_neg x).trans hx
  have hunits : y.units + (-x).units = y.units - x.units := by rw [units_neg, Int.sub_eq_add_neg]
  rw [sub_of_isFinite hy hx, add_of_isFinite hy hneg, hunits, if_neg (by omega),
    decide_eq_false (by omega)]

/-- The width of an interval between finite numbers, which is an infinite number if it is too
large. -/
theorem exists_sub_eq (hx : x.isFinite = true) (hy : y.isFinite = true) (h : x.numLt y = true) :
    ∃ m ≤ infinite, y - x = ofParts false m := by
  rw [sub_eq_nearest hx hy h]
  exact ⟨_, nearestMagnitude_le _ _, rfl⟩

theorem abs_ofParts {m : Nat} (hm : m ≤ infinite) : (ofParts false m).abs = ofParts false m := by
  rw [abs, magnitude_ofParts (Nat.lt_of_le_of_lt hm infinite_lt)]

end LinOpt.Double
