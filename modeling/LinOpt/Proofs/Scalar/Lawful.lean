import LinOpt.Proofs.Double.Integers
import LinOpt.Proofs.Double.Order
import LinOpt.Proofs.Model.Built

namespace LinOpt

/-- A domain whose order is that of its bounds as reals. -/
class LawfulScalar (S : Type) [Scalar S] : Prop where
  toBound_le {a b : S} : Scalar.rank a ≤ Scalar.rank b → (Scalar.toDouble a).isNaN = false →
    (Scalar.toDouble b).isNaN = false → (Scalar.toBound a).numLe (Scalar.toBound b) = true
  zero_le_one : Scalar.rank (Scalar.zero : S) ≤ Scalar.rank (Scalar.one : S)

theorem Double.numLe_iff_rank {x y : Double} : x.numLe y = true ↔
    x.isNaN = false ∧ y.isNaN = false ∧ Scalar.rank x ≤ Scalar.rank y := by
  rw [numLe_iff, units_le_iff]
  rfl

instance : LawfulScalar Double where
  toBound_le h ha hb := Double.numLe_iff_rank.mpr ⟨ha, hb, h⟩
  zero_le_one := by decide

theorem Double.numLe_ofInt {a b : Int} (h : a ≤ b) : (ofInt a).numLe (ofInt b) = true :=
  numLe_iff.mpr ⟨isNaN_ofInt a, isNaN_ofInt b, units_ofInt_mono h⟩

theorem Double.negInfinity_numLe {x : Double} (hx : x.isNaN = false) :
    negInfinity.numLe x = true := by
  refine numLe_iff.mpr ⟨isNaN_negInfinity, hx, ?_⟩
  have hle := unitsOf_magnitude_le hx
  rw [negInfinity, units_ofParts (Nat.le_refl _), if_pos rfl, units]
  split <;> omega

theorem Double.numLe_infinity {x : Double} (hx : x.isNaN = false) : x.numLe infinity = true := by
  refine numLe_iff.mpr ⟨hx, isNaN_infinity, ?_⟩
  have hle := unitsOf_magnitude_le hx
  rw [infinity, units_ofParts (Nat.le_refl _), if_neg Bool.false_ne_true, units]
  split <;> omega

theorem isNaN_toBound_int64 (n : Int64) : (Scalar.toBound n : Double).isNaN = false := by
  show (if n = Int64.minValue then Double.negInfinity
    else if n = Int64.maxValue then .infinity else .ofInt n.toInt).isNaN = false
  split
  · exact Double.isNaN_negInfinity
  · split
    · exact Double.isNaN_infinity
    · exact Double.isNaN_ofInt _

/-- The extremes stand for open sides. Between them the order is that of the rounded integers. -/
instance : LawfulScalar Int64 where
  toBound_le {a b} h _ _ := by
    have hle : a.toInt ≤ b.toInt := h
    by_cases hmin : a = Int64.minValue
    · rw [show (Scalar.toBound a : Double) = .negInfinity from if_pos hmin]
      exact Double.negInfinity_numLe (isNaN_toBound_int64 b)
    · by_cases hmax : b = Int64.maxValue
      · rw [show (Scalar.toBound b : Double) = .infinity by rw [hmax]; rfl]
        exact Double.numLe_infinity (isNaN_toBound_int64 a)
      · have hamax : a ≠ Int64.maxValue := by
          rintro rfl
          have := b.toInt_lt
          exact hmax (Int64.toInt_inj.mp (by rw [Int64.toInt_maxValue] at *; omega))
        have hbmin : b ≠ Int64.minValue := by
          rintro rfl
          have := a.le_toInt
          exact hmin (Int64.toInt_inj.mp (by rw [Int64.toInt_minValue] at *; omega))
        rw [show (Scalar.toBound a : Double) = .ofInt a.toInt from (if_neg hmin).trans (if_neg hamax),
          show (Scalar.toBound b : Double) = .ofInt b.toInt from (if_neg hbmin).trans (if_neg hmax)]
        exact Double.numLe_ofInt hle
  zero_le_one := by decide

instance : LawfulScalar Bit where
  toBound_le h _ _ := Double.numLe_ofInt h
  zero_le_one := by decide

namespace Interval

variable {S : Type} [Scalar S]

/-- Both bounds are numbers. -/
structure Numeric (i : Interval S) : Prop where
  lower : (Scalar.toDouble i.lower).isNaN = false
  upper : (Scalar.toDouble i.upper).isNaN = false

variable [LawfulScalar S]

theorem Built.rank_le {i : Interval S} (h : i.Built) : Scalar.rank i.lower ≤ Scalar.rank i.upper := by
  cases h with
  | @new lower upper _ h =>
      rw [Interval.new] at h
      split at h
      case isTrue => cases h
      case isFalse hno =>
        cases h
        simp only [Bool.or_eq_true, not_or, Scalar.lt, decide_eq_true_eq] at hno
        exact Int.not_lt.mp hno.1.1
  | point value => exact Int.le_refl _
  | binary => exact LawfulScalar.zero_le_one

theorem Built.toBound_le {i : Interval S} (h : i.Built) (hnumeric : i.Numeric) :
    (Scalar.toBound i.lower).numLe (Scalar.toBound i.upper) = true :=
  LawfulScalar.toBound_le h.rank_le hnumeric.lower hnumeric.upper

theorem new_eq_ok {x y : Double} (h : x.numLe y = true) : Interval.new x y = .ok ⟨x, y⟩ := by
  obtain ⟨hx, hy, hle⟩ := Double.numLe_iff_rank.mp h
  rw [Interval.new, Scalar.lt, decide_eq_false (Int.not_lt.mpr hle),
    show (Scalar.toDouble x).isNaN = false from hx, show (Scalar.toDouble y).isNaN = false from hy]
  rfl

theorem new_eq_ok_iff {x y : Double} {i : Interval Double} :
    Interval.new x y = .ok i ↔ x.numLe y = true ∧ i = ⟨x, y⟩ := by
  constructor
  · intro h
    rw [Interval.new] at h
    split at h
    case isTrue => cases h
    case isFalse hno =>
      cases h
      simp only [Bool.or_eq_true, not_or, Scalar.lt, decide_eq_true_eq, Bool.not_eq_true] at hno
      exact ⟨Double.numLe_iff_rank.mpr ⟨hno.1.2, hno.2, Int.not_lt.mp hno.1.1⟩, rfl⟩
  · rintro ⟨h, rfl⟩
    exact new_eq_ok h

end Interval

end LinOpt
