import LinOpt.Proofs.Double.Arithmetic
import Mathlib.Algebra.Order.Floor.Ring
import Mathlib.Data.Rat.Floor
import Mathlib.Order.WithBot

namespace LinOpt.Double

/-- The number that a finite pattern stands for. -/
def value (x : Double) : ℚ := x.units / scale

def extend (v : ℚ) : WithBot (WithTop ℚ) := ((v : WithTop ℚ) : WithBot (WithTop ℚ))

def extended (x : Double) : WithBot (WithTop ℚ) :=
  if x.isFinite then extend x.value else if x.isNegative then ⊥ else ⊤

/-- A finite number that is the integer `n`. -/
def Holds (x : Double) (n : Int) : Prop := x.isFinite = true ∧ x.value = n

variable {x : Double}

theorem isFinite_negInfinity : negInfinity.isFinite = false := by decide

theorem isFinite_infinity : infinity.isFinite = false := by decide

theorem scale_pos : 0 < scale := by decide +kernel

theorem value_eq_intCast_iff {n : Int} : x.value = n ↔ x.units = n * scale := by
  have hpos := scale_pos
  rw [value]
  generalize scale = k at hpos ⊢
  have hk : (k : ℚ) ≠ 0 := by exact_mod_cast Nat.ne_of_gt hpos
  rw [div_eq_iff hk]
  exact_mod_cast Iff.rfl

theorem floor_value (x : Double) : ⌊x.value⌋ = x.units.fdiv scale := by
  rw [value, Rat.floor_intCast_div_natCast, Int.fdiv_eq_ediv_of_nonneg _ (Int.natCast_nonneg _)]

theorem ceil_value (x : Double) : ⌈x.value⌉ = -(-x.units).fdiv scale := by
  rw [value, Rat.ceil_intCast_div_natCast, Int.fdiv_eq_ediv_of_nonneg _ (Int.natCast_nonneg _)]

theorem floor?_eq_some {n : Int} : x.floor? = some n ↔ x.isFinite = true ∧ ⌊x.value⌋ = n := by
  rw [floor?, floor_value, Option.ite_none_right_eq_some, Option.some.injEq]

theorem ceil?_eq_some {n : Int} : x.ceil? = some n ↔ x.isFinite = true ∧ ⌈x.value⌉ = n := by
  rw [ceil?, ceil_value, Option.ite_none_right_eq_some, Option.some.injEq]

theorem whole?_eq_some {n : Int} : x.whole? = some n ↔ x.Holds n := by
  have hpos : (0 : Int) < scale := by exact_mod_cast scale_pos
  rw [whole?, Holds, value_eq_intCast_iff]
  generalize (scale : Int) = k at hpos ⊢
  rw [Int.fdiv_eq_ediv_of_nonneg _ (Int.le_of_lt hpos)]
  simp only [Option.ite_none_right_eq_some, Bool.and_eq_true, beq_iff_eq, Option.some.injEq, and_assoc]
  apply and_congr_right'
  constructor
  · rintro ⟨h, rfl⟩
    exact (Int.ediv_mul_cancel (Int.dvd_of_emod_eq_zero h)).symm
  · intro h
    rw [h]
    exact ⟨Int.mul_emod_left _ _, Int.mul_ediv_cancel _ (Int.ne_of_gt hpos)⟩

theorem units_of_holds {n : Int} (h : x.Holds n) : x.units = n * scale := value_eq_intCast_iff.mp h.2

theorem half_up_div {k s : Int} (hs : 0 < s) : (2 * (k * s) + s) / (2 * s) = k := by
  have hmul : 2 * (k * s) + s = s + 2 * s * k := by rw [Int.mul_assoc, Int.mul_comm s k, Int.add_comm]
  rw [hmul, Int.add_mul_ediv_left _ _ (by omega), Int.ediv_eq_zero_of_lt (by omega) (by omega),
    Int.zero_add]

theorem roundAway_of_holds {n : Int} (h : x.Holds n) : x.roundAway = n := by
  have hunits := units_of_holds h
  have hpos : (0 : Int) < scale := by exact_mod_cast scale_pos
  rw [units] at hunits
  rw [roundAway]
  generalize (scale : Int) = s at hunits hpos ⊢
  cases hneg : x.isNegative with
  | true =>
      rw [hneg, if_pos rfl] at hunits
      have hmag : (unitsOf x.magnitude : Int) = -n * s := by rw [Int.neg_mul, ← hunits, Int.neg_neg]
      rw [if_pos rfl, hmag, half_up_div hpos, Int.neg_neg]
  | false =>
      rw [hneg, if_neg Bool.false_ne_true] at hunits
      rw [if_neg Bool.false_ne_true, hunits, half_up_div hpos]

theorem extend_le_extend {v w : ℚ} : extend v ≤ extend w ↔ v ≤ w := by
  rw [extend, extend, WithBot.coe_le_coe, WithTop.coe_le_coe]

theorem extended_of_isFinite (hx : x.isFinite = true) : x.extended = extend x.value := if_pos hx

theorem extended_le_extend (hx : x.isFinite = true) {v : ℚ} : x.extended ≤ extend v ↔ x.value ≤ v := by
  rw [extended_of_isFinite hx, extend_le_extend]

theorem extend_le_extended (hx : x.isFinite = true) {v : ℚ} : extend v ≤ x.extended ↔ v ≤ x.value := by
  rw [extended_of_isFinite hx, extend_le_extend]

end LinOpt.Double
