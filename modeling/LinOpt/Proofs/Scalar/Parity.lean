import LinOpt.Scalar.Promotion

namespace LinOpt

namespace Bit

def parity (n : Int64) : Bit := ⟨n.toInt % 2 == 1⟩

theorem value_parity (n : Int64) : (parity n).value = n.toInt % 2 := by
  rcases Int.emod_two_eq n.toInt with h | h <;> simp [parity, value, h]

theorem value_add (a b : Bit) : (a + b).value = (a.value + b.value) % 2 := by
  rcases a with ⟨a⟩
  rcases b with ⟨b⟩
  cases a <;> cases b <;> rfl

theorem toInt_toInt64 (b : Bit) : b.toInt64.toInt = b.value := by
  rcases b with ⟨b⟩
  cases b <;> rfl

theorem value_bounds (b : Bit) : 0 ≤ b.value ∧ b.value ≤ 1 := by
  rcases b with ⟨b⟩
  cases b <;> decide

end Bit

theorem tmod_two (k : Int) : k.tmod 2 = if k < 0 then -(k % 2) else k % 2 := by
  split
  case isTrue h =>
    obtain ⟨m, rfl⟩ : ∃ m, k = -m := ⟨-k, (Int.neg_neg k).symm⟩
    rw [Int.neg_tmod, Int.tmod_eq_emod_of_nonneg (by omega)]
    omega
  case isFalse h => exact Int.tmod_eq_emod_of_nonneg (Int.not_lt.mp h)

namespace Bit

variable (b : Bit) (n : Int64)

/-- The sum of 64 bits wraps for the largest integer only, from an even sum to an even sum. -/
theorem toInt_wrapped : (b.toInt64 + n).toInt = b.value + n.toInt ∨
    (b.toInt64 + n).toInt = b.value + n.toInt - 2 ^ 64 ∧ b.value + n.toInt = 2 ^ 63 := by
  have hb := b.value_bounds
  have hl := n.le_toInt
  have hu := n.toInt_lt
  rw [Int64.toInt_add, toInt_toInt64, Int.bmod_def]
  split <;> omega

theorem toInt_addInt64 :
    (b + n).toInt = if n.toInt < 0 then -(b + parity n).value else (b + parity n).value := by
  have hb := b.value_bounds
  have hremainder : (b + n).toInt = (b.toInt64 + n).toInt.tmod 2 := Int64.toInt_mod _ _
  rw [hremainder, tmod_two, value_add, value_parity]
  rcases b.toInt_wrapped n with h | ⟨h, hmax⟩
  · rw [h]
    omega
  · rw [h]
    omega

theorem eq_toInt64_iff {b : Bit} {n : Int64} : n = b.toInt64 ↔ n.toInt = b.value := by
  rw [← Int64.toInt_inj, toInt_toInt64]

/-- The sum has the parity of the exact sum, and it is the sum of the bits, except that it gets the
sign of a negative integer. -/
theorem add_int64_modulo_two : b - n = b + n ∧ b - parity n = b + parity n ∧
    (b + n).toInt % 2 = (b.value + n.toInt) % 2 ∧
    (b + n).toInt = (if n.toInt < 0 then -(b + parity n).value else (b + parity n).value) ∧
    (b + n = (b + parity n).toInt64 ↔ 0 ≤ n.toInt ∨ (b.value + n.toInt) % 2 = 0) := by
  have hsum := b.toInt_addInt64 n
  have hvalue : (b + parity n).value = (b.value + n.toInt) % 2 := by
    rw [value_add, value_parity]
    omega
  rw [eq_toInt64_iff, hsum, hvalue]
  refine ⟨rfl, rfl, ?_, rfl, ?_⟩ <;> omega

/-- An odd negative integer is left negative, while its bit would be one. -/
theorem zero_add_neg_one : (⟨false⟩ : Bit) + (-1 : Int64) = (-1 : Int64) ∧
    ((⟨false⟩ : Bit) + parity (-1)).toInt64 = 1 ∧
    ¬ ∀ (b : Bit) (n : Int64), b + n = (b + parity n).toInt64 := by
  refine ⟨by decide, by decide, fun h => ?_⟩
  exact absurd (h ⟨false⟩ (-1)) (by decide)

end Bit

end LinOpt
