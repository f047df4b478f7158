import LinOpt.Double.Rounding

namespace LinOpt.Double

theorem magnitude_lt (x : Double) : x.magnitude < 2 ^ 63 := Nat.mod_lt _ (by decide)

theorem toNat_bits_ofParts {m : Nat} (hm : m < 2 ^ 63) (negative : Bool) :
    (ofParts negative m).bits.toNat = m + if negative then 2 ^ 63 else 0 := by
  have h : m + (if negative then 2 ^ 63 else 0) < 2 ^ 64 := by split <;> omega
  exact UInt64.toNat_ofNat_of_lt' h

theorem isNegative_ofParts {m : Nat} (hm : m < 2 ^ 63) (negative : Bool) :
    (ofParts negative m).isNegative = negative := by
  rw [isNegative, toNat_bits_ofParts hm]
  cases negative with
  | true =>
      rw [if_pos rfl]
      exact decide_eq_true (Nat.le_add_left _ _)
  | false =>
      rw [if_neg Bool.false_ne_true, Nat.add_zero]
      exact decide_eq_false (Nat.not_le.mpr hm)

theorem magnitude_ofParts {m : Nat} (hm : m < 2 ^ 63) (negative : Bool) :
    (ofParts negative m).magnitude = m := by
  rw [magnitude, toNat_bits_ofParts hm]
  split <;> omega

theorem ofParts_isNegative_magnitude (x : Double) : ofParts x.isNegative x.magnitude = x := by
  have hx : x.bits.toNat < 2 ^ 64 := x.bits.toNat_lt
  have h : x.magnitude + (if x.isNegative then 2 ^ 63 else 0) = x.bits.toNat := by
    simp only [magnitude, isNegative, decide_eq_true_eq]
    split <;> omega
  rw [ofParts, h, UInt64.ofNat_toNat]

theorem infinite_lt : infinite < 2 ^ 63 := by decide

theorem magnitude_le_of_not_isNaN {x : Double} (h : x.isNaN = false) : x.magnitude ≤ infinite := by
  simpa [isNaN] using h

theorem roundHalfEven_mul {den : Nat} (hd : 0 < den) (q : Nat) : roundHalfEven (q * den) den = q := by
  simp [roundHalfEven, Nat.mul_div_cancel _ hd, hd]

theorem log2_unitsOf {m : Nat} (hm : 2 ^ 53 ≤ m) : (unitsOf m).log2 = m / 2 ^ 52 - 1 + 52 := by
  have hpos : 0 < 2 ^ (m / 2 ^ 52 - 1) := Nat.two_pow_pos _
  have hlow : 2 ^ 52 ≤ 2 ^ 52 + m % 2 ^ 52 := Nat.le_add_right _ _
  have hhigh : 2 ^ 52 + m % 2 ^ 52 < 2 ^ 53 := by omega
  rw [unitsOf, if_neg (by omega), Nat.log2_eq_iff (Nat.mul_ne_zero (by omega) (Nat.ne_of_gt hpos))]
  constructor
  · rw [Nat.pow_add, Nat.mul_comm]
    exact Nat.mul_le_mul_right _ hlow
  · rw [Nat.add_assoc, Nat.pow_add, Nat.mul_comm (2 ^ _)]
    exact Nat.mul_lt_mul_of_pos_right hhigh hpos

theorem log2_unitsOf_le {m : Nat} (hm : m < 2 ^ 53) : (unitsOf m).log2 ≤ 52 := by
  rw [unitsOf, if_pos hm]
  rcases Nat.eq_zero_or_pos m with rfl | hpos
  · decide
  · exact Nat.le_of_lt_succ ((Nat.log2_lt (Nat.ne_of_gt hpos)).mpr hm)

theorem nearestMagnitude_unitsOf {m k : Nat} (hm : m < infinite) (hk : 0 < k) :
    nearestMagnitude (unitsOf m * k) k = m := by
  simp only [nearestMagnitude, Nat.mul_div_cancel _ hk]
  rcases Nat.lt_or_ge m (2 ^ 53) with hsmall | hlarge
  · have hlog := log2_unitsOf_le hsmall
    rw [Nat.sub_eq_zero_of_le hlog, Nat.pow_zero, Nat.mul_one, roundHalfEven_mul hk, unitsOf,
      if_pos hsmall, Nat.zero_mul, Nat.zero_add]
    exact Nat.min_eq_left (Nat.le_of_lt hm)
  · have hpos : 0 < 2 ^ (m / 2 ^ 52 - 1) := Nat.two_pow_pos _
    rw [log2_unitsOf hlarge, Nat.add_sub_cancel, unitsOf, if_neg (by omega), Nat.mul_assoc,
      Nat.mul_comm (2 ^ _) k, roundHalfEven_mul (Nat.mul_pos hk hpos)]
    omega

end LinOpt.Double
