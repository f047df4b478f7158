import LinOpt.Proofs.Double.Integers
import LinOpt.Proofs.Double.Order

namespace LinOpt.Double

variable {x : Double} {n : Int}

theorem natAbs_units (x : Double) : x.units.natAbs = unitsOf x.magnitude := by
  rw [units]
  split <;> omega

theorem unitsOf_mul_two_pow {e : Nat} (he : 0 < e) : unitsOf ((e + 1) * 2 ^ 52) = 2 ^ 52 * 2 ^ e := by
  rw [unitsOf, if_neg (by omega), Nat.mul_mod_left, Nat.mul_div_cancel _ (by decide), Nat.add_zero,
    Nat.add_sub_cancel]

/-- The exponent of `2 ^ 53` is the first with a spacing of two. -/
theorem two_dvd_unitsOf {m : Nat} (h : 2 ^ 53 * scale ≤ unitsOf m) : 2 * scale ∣ unitsOf m := by
  obtain ⟨e, hscale⟩ : ∃ e, scale = 2 ^ e := ⟨1074, by rw [scale]⟩
  -- from here on no step can try to compute the power
  generalize scale = s at h hscale ⊢
  have hspacing : 2 * s = 2 ^ (e + 1) := by rw [hscale, Nat.pow_succ']
  have hfirst : unitsOf ((e + 1 + 1) * 2 ^ 52) = 2 ^ 53 * s := by
    rw [unitsOf_mul_two_pow (Nat.succ_pos e), ← hspacing]
    omega
  have hm : (e + 1 + 1) * 2 ^ 52 ≤ m := unitsOf_le_unitsOf.mp (hfirst ▸ h)
  obtain ⟨k, hk⟩ := Nat.exists_eq_add_of_le (show e + 1 ≤ m / 2 ^ 52 - 1 by omega)
  rw [unitsOf, if_neg (by omega), hk, Nat.pow_add, ← hspacing, Nat.mul_left_comm]
  exact Nat.dvd_mul_right _ _

theorem exists_even_units (h : 2 ^ 53 * scale ≤ x.units.natAbs) :
    ∃ k : Int, x.units = 2 * k * scale := by
  have hdvd : 2 * scale ∣ x.units.natAbs := by
    rw [natAbs_units] at h ⊢
    exact two_dvd_unitsOf h
  obtain ⟨k, hk⟩ := Int.natCast_dvd.mpr hdvd
  refine ⟨k, hk.trans ?_⟩
  push_cast
  ring

theorem even_of_floor (hn : ⌊x.value⌋ = n) (hlarge : 2 ^ 53 ≤ n) : ∃ k, n = 2 * k := by
  have hpos : (0 : Int) < scale := by exact_mod_cast scale_pos
  rw [floor_value, Int.fdiv_eq_ediv_of_nonneg _ (Int.le_of_lt hpos)] at hn
  have hle : 2 ^ 53 * scale ≤ x.units := by
    calc 2 ^ 53 * (scale : Int) ≤ n * scale := Int.mul_le_mul_of_nonneg_right hlarge (Int.le_of_lt hpos)
      _ ≤ x.units := hn ▸ Int.ediv_mul_le _ (Int.ne_of_gt hpos)
  obtain ⟨k, hk⟩ : ∃ k : Int, x.units = 2 * k * scale := by
    apply exists_even_units
    generalize scale = s at hle ⊢
    omega
  rw [hk, Int.mul_ediv_cancel _ (Int.ne_of_gt hpos)] at hn
  exact ⟨k, hn.symm⟩

theorem isFinite_of_natAbs_units_le {y : Double} (hy : y.isFinite = true)
    (h : x.units.natAbs ≤ y.units.natAbs) : x.isFinite = true := by
  rw [natAbs_units, natAbs_units, unitsOf_le_unitsOf] at h
  exact decide_eq_true (Nat.lt_of_le_of_lt h (of_decide_eq_true hy))

theorem ofInt_two_pow_holds {j : Nat} (hj : j ≤ 971) : (ofInt (2 ^ j)).Holds (2 ^ j) :=
  ofInt_holds (by rw [Int.natAbs_pow, Nat.one_mul]; rfl) (by decide : 1 < 2 ^ 53) hj

theorem ofInt_neg_two_pow_holds {j : Nat} (hj : j ≤ 971) : (ofInt (-2 ^ j)).Holds (-2 ^ j) :=
  ofInt_holds (by rw [Int.natAbs_neg, Int.natAbs_pow, Nat.one_mul]; rfl) (by decide : 1 < 2 ^ 53) hj

theorem units_ofInt_within (hl : -2 ^ 63 ≤ n) (hu : n ≤ 2 ^ 63) :
    -2 ^ 63 * scale ≤ (ofInt n).units ∧ (ofInt n).units ≤ 2 ^ 63 * scale := by
  rw [← units_of_holds (ofInt_two_pow_holds (by decide)),
    ← units_of_holds (ofInt_neg_two_pow_holds (by decide))]
  exact ⟨units_ofInt_mono hl, units_ofInt_mono hu⟩

theorem le_natAbs_units_ofInt (h : 2 ^ 53 ≤ n.natAbs) : 2 ^ 53 * scale ≤ (ofInt n).units.natAbs := by
  rcases Int.le_total 0 n with hn | hn
  · have hle := units_ofInt_mono (show 2 ^ 53 ≤ n by omega)
    rw [units_of_holds (ofInt_two_pow_holds (by decide))] at hle
    generalize scale = s at hle ⊢
    omega
  · have hle := units_ofInt_mono (show n ≤ -2 ^ 53 by omega)
    rw [units_of_holds (ofInt_neg_two_pow_holds (by decide))] at hle
    generalize scale = s at hle ⊢
    omega

theorem exists_ofInt_holds (hl : -2 ^ 63 ≤ n) (hu : n ≤ 2 ^ 63) :
    ∃ k, (ofInt n).Holds k ∧ -2 ^ 63 ≤ k ∧ k ≤ 2 ^ 63 := by
  have hpos : (0 : Int) < scale := by exact_mod_cast scale_pos
  obtain ⟨hle, hge⟩ := units_ofInt_within hl hu
  have hfinite : (ofInt n).isFinite = true := by
    have htop : (ofInt (2 ^ 63)).Holds (2 ^ 63) := ofInt_two_pow_holds (by decide)
    refine isFinite_of_natAbs_units_le htop.1 ?_
    rw [units_of_holds htop]
    generalize (scale : Int) = s at hle hge ⊢
    omega
  obtain ⟨k, hk⟩ : ∃ k : Int, (ofInt n).units = k * scale := by
    rcases Nat.lt_or_ge n.natAbs (2 ^ 53) with hsmall | hlarge
    · exact ⟨n, units_of_holds (ofInt_holds_of_lt hsmall)⟩
    · obtain ⟨k, hk⟩ := exists_even_units (le_natAbs_units_ofInt hlarge)
      exact ⟨2 * k, hk⟩
  rw [hk] at hle hge
  exact ⟨k, ⟨hfinite, value_eq_intCast_iff.mpr hk⟩, Int.le_of_mul_le_mul_right hle hpos,
    Int.le_of_mul_le_mul_right hge hpos⟩

end LinOpt.Double
