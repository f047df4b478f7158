import LinOpt.Proofs.Double.Value

namespace LinOpt.Double

theorem isNaN_ofInt (n : Int) : (ofInt n).isNaN = false := isNaN_ofParts (nearestMagnitude_le _ _) _

theorem exists_shift {s : Nat} (hpos : 0 < s) (hs : s < 2 ^ 53) :
    ∃ e ≤ 52, 2 ^ 52 ≤ s * 2 ^ e ∧ s * 2 ^ e < 2 ^ 53 := by
  have hlog : s.log2 ≤ 52 := Nat.le_of_lt_succ ((Nat.log2_lt (Nat.ne_of_gt hpos)).mpr hs)
  obtain ⟨e, he⟩ := Nat.exists_eq_add_of_le hlog
  refine ⟨e, by omega, ?_, ?_⟩
  · calc 2 ^ 52 = 2 ^ s.log2 * 2 ^ e := by rw [← Nat.pow_add, ← he]
      _ ≤ s * 2 ^ e := Nat.mul_le_mul_right _ (Nat.log2_self_le (Nat.ne_of_gt hpos))
  · calc s * 2 ^ e < 2 ^ (s.log2 + 1) * 2 ^ e :=
          Nat.mul_lt_mul_of_pos_right Nat.lt_log2_self (Nat.two_pow_pos e)
      _ = 2 ^ 53 := by rw [← Nat.pow_add, Nat.add_right_comm, ← he]

theorem exists_unitsOf_eq {s k : Nat} (hs : s < 2 ^ 53) (hlow : 53 ≤ k) (hhigh : k ≤ 2045) :
    ∃ m < infinite, unitsOf m = s * 2 ^ k := by
  rcases Nat.eq_zero_or_pos s with rfl | hpos
  · exact ⟨0, by decide, by rw [Nat.zero_mul]; rfl⟩
  · obtain ⟨e, he, hge, hlt⟩ := exists_shift hpos hs
    obtain ⟨j, rfl⟩ := Nat.exists_eq_add_of_le (show e + 1 ≤ k by omega)
    obtain ⟨f, hf⟩ := Nat.exists_eq_add_of_le hge
    have hdiv : ((j + 2) * 2 ^ 52 + f) / 2 ^ 52 = j + 2 := by omega
    have hmod : ((j + 2) * 2 ^ 52 + f) % 2 ^ 52 = f := by omega
    refine ⟨(j + 2) * 2 ^ 52 + f, by rw [infinite]; omega, ?_⟩
    rw [unitsOf, if_neg (by omega), hdiv, hmod, ← hf, Nat.mul_assoc, ← Nat.pow_add]
    congr 2
    omega

theorem ofInt_holds_of_units {n : Int} {m : Nat} (hm : m < infinite)
    (h : unitsOf m = n.natAbs * scale) : (ofInt n).Holds n := by
  have hmag : nearestMagnitude (n.natAbs * scale) 1 = m := by
    rw [← h, ← Nat.mul_one (unitsOf m)]
    exact nearestMagnitude_unitsOf hm Nat.one_pos
  rw [ofInt, nearest, hmag]
  refine ⟨?_, value_eq_intCast_iff.mpr ?_⟩
  · rw [isFinite, magnitude_ofParts (Nat.lt_trans hm infinite_lt)]
    exact decide_eq_true hm
  · rw [units_ofParts (Nat.le_of_lt hm), h, Nat.cast_mul]
    by_cases hn : n < 0
    · rw [if_pos (decide_eq_true hn), Int.ofNat_natAbs_of_nonpos (Int.le_of_lt hn), Int.neg_mul,
        Int.neg_neg]
    · rw [if_neg (by simpa using hn), Int.natAbs_of_nonneg (Int.not_lt.mp hn)]

/-- An integer with at most 53 significant bits becomes a real without being rounded. -/
theorem ofInt_holds {n : Int} {s j : Nat} (hn : n.natAbs = s * 2 ^ j) (hs : s < 2 ^ 53)
    (hj : j ≤ 971) : (ofInt n).Holds n := by
  obtain ⟨m, hm, hunits⟩ := exists_unitsOf_eq hs (show 53 ≤ j + 1074 by omega) (by omega)
  refine ofInt_holds_of_units hm ?_
  rw [hunits, hn, Nat.mul_assoc, Nat.pow_add, scale]

theorem ofInt_holds_of_lt {n : Int} (h : n.natAbs < 2 ^ 53) : (ofInt n).Holds n :=
  ofInt_holds (j := 0) (Nat.mul_one _).symm h (by decide)

end LinOpt.Double
