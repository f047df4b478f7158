import LinOpt.Proofs.Double.Arithmetic
import Mathlib.Data.Nat.Log

namespace LinOpt.Double

theorem position_canonical (x : Double) :
    x.canonical.position = if x.magnitude = 0 then 0 else x.position := by
  rw [canonical]
  split <;> rfl

theorem units_le_iff {x y : Double} : x.units ≤ y.units ↔ x.canonical.position ≤ y.canonical.position := by
  have hle : unitsOf x.magnitude ≤ unitsOf y.magnitude ↔ x.magnitude ≤ y.magnitude :=
    unitsOf_le_unitsOf
  have hge : unitsOf y.magnitude ≤ unitsOf x.magnitude ↔ y.magnitude ≤ x.magnitude :=
    unitsOf_le_unitsOf
  have hx : unitsOf x.magnitude ≤ unitsOf 0 ↔ x.magnitude ≤ 0 := unitsOf_le_unitsOf
  have hy : unitsOf y.magnitude ≤ unitsOf 0 ↔ y.magnitude ≤ 0 := unitsOf_le_unitsOf
  rw [show unitsOf 0 = 0 from rfl] at hx hy
  rw [position_canonical, position_canonical, units, units, position, position]
  -- from here on only the order of the two unit counts, and where they are zero, matters
  generalize unitsOf x.magnitude = a at *
  generalize unitsOf y.magnitude = b at *
  cases x.isNegative <;> cases y.isNegative <;> simp only [Bool.false_eq_true, if_true, if_false] <;>
    split_ifs <;> omega

theorem div_le_roundHalfEven (num den : Nat) : num / den ≤ roundHalfEven num den := by
  simp only [roundHalfEven]
  split
  · exact Nat.le_refl _
  · split <;> exact Nat.le_add_right _ _

theorem roundHalfEven_le (num den : Nat) : roundHalfEven num den ≤ num / den + 1 := by
  simp only [roundHalfEven]
  split
  · exact Nat.le_succ _
  · split
    · exact Nat.le_refl _
    · exact Nat.add_le_add_left (Nat.le_of_lt_succ (Nat.mod_lt _ (by decide))) _

theorem roundHalfEven_mono {a b : Nat} (h : a ≤ b) (den : Nat) :
    roundHalfEven a den ≤ roundHalfEven b den := by
  rcases Nat.lt_or_eq_of_le (Nat.div_le_div_right (c := den) h) with hlt | heq
  · exact Nat.le_trans (roundHalfEven_le a den) (Nat.le_trans hlt (div_le_roundHalfEven b den))
  · have hmod : a % den ≤ b % den := by
      have ha := Nat.div_add_mod a den
      have hb := Nat.div_add_mod b den
      rw [heq] at ha
      omega
    simp only [roundHalfEven, heq]
    split_ifs <;> omega

theorem div_lt_two_pow (q : Nat) : q / 2 ^ (q.log2 - 52) < 2 ^ 53 := by
  rw [Nat.div_lt_iff_lt_mul (Nat.two_pow_pos _), ← Nat.pow_add]
  exact Nat.lt_of_lt_of_le Nat.lt_log2_self (Nat.pow_le_pow_right (by decide) (by omega))

theorem two_pow_le_div {q : Nat} (h : 0 < q.log2 - 52) : 2 ^ 52 ≤ q / 2 ^ (q.log2 - 52) := by
  have hq : q ≠ 0 := by
    rintro rfl
    exact absurd h (by decide)
  rw [Nat.le_div_iff_mul_le (Nat.two_pow_pos _), ← Nat.pow_add, Nat.add_sub_cancel' (by omega)]
  exact Nat.log2_self_le hq

/-- A larger exponent outweighs every significand, which is between `2 ^ 52` and `2 ^ 53`. -/
theorem nearestMagnitude_mono {a b : Nat} (h : a ≤ b) (den : Nat) :
    nearestMagnitude a den ≤ nearestMagnitude b den := by
  have hdiv : a / den ≤ b / den := Nat.div_le_div_right h
  have hlog : (a / den).log2 - 52 ≤ (b / den).log2 - 52 :=
    Nat.sub_le_sub_right (by simpa only [Nat.log2_eq_log_two] using Nat.log_mono_right hdiv) 52
  simp only [nearestMagnitude]
  refine Nat.le_min.mpr ⟨Nat.le_trans (Nat.min_le_left _ _) ?_, Nat.min_le_right _ _⟩
  rcases Nat.lt_or_eq_of_le hlog with hlt | heq
  · have hlow := roundHalfEven_le a (den * 2 ^ ((a / den).log2 - 52))
    have hhigh := div_le_roundHalfEven b (den * 2 ^ ((b / den).log2 - 52))
    rw [← Nat.div_div_eq_div_mul] at hlow hhigh
    have := div_lt_two_pow (a / den)
    have := two_pow_le_div (Nat.lt_of_le_of_lt (Nat.zero_le _) hlt)
    omega
  · rw [heq]
    exact Nat.add_le_add_left (roundHalfEven_mono h _) _

theorem units_ofInt_mono {a b : Int} (h : a ≤ b) : (ofInt a).units ≤ (ofInt b).units := by
  rw [ofInt, ofInt, nearest, nearest, units_ofParts (nearestMagnitude_le _ _),
    units_ofParts (nearestMagnitude_le _ _)]
  have hmono {k n : Nat} (hkn : k ≤ n) : unitsOf (nearestMagnitude (k * scale) 1) ≤
      unitsOf (nearestMagnitude (n * scale) 1) :=
    unitsOf_le_unitsOf.mpr (nearestMagnitude_mono (Nat.mul_le_mul_right _ hkn) 1)
  by_cases ha : a < 0
  · by_cases hb : b < 0
    · rw [if_pos (decide_eq_true ha), if_pos (decide_eq_true hb)]
      have := hmono (show b.natAbs ≤ a.natAbs by omega)
      omega
    · rw [if_pos (decide_eq_true ha), if_neg (by simpa using hb)]
      omega
  · rw [if_neg (by simpa using ha), if_neg (by simp; omega)]
    exact Int.ofNat_le.mpr (hmono (by omega))

end LinOpt.Double
