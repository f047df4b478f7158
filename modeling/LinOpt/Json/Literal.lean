import LinOpt.Double.Arithmetic
import LinOpt.Double.Text

namespace LinOpt

structure NumberLiteral where
  negative : Bool
  whole : List Char
  fraction : Option (List Char)
  exponent : Option Int

namespace NumberLiteral

/-- Takes digits into a significand while it stays below `2 ^ 64`. The answer counts the digits that
were taken and those that were not. -/
def absorb (significand : Nat) (taken : Nat) : List Char → Nat × Nat × Nat
  | [] => (significand, taken, 0)
  | c :: cs =>
    let next := 10 * significand + (c.toNat - '0'.toNat)
    if next < 2 ^ 64 then absorb next (taken + 1) cs else (significand, taken, cs.length + 1)

def powerOfTen (k : Nat) : Double := .ofNat (10 ^ k)

def maxPower : Nat := 308

def scaleUp (x : Double) (k : Nat) : Option Double :=
  if k ≤ maxPower then
    let y := x * powerOfTen k
    if y.isInfinite then none else some y
  else if x == .zero then some x
  else none

def scaleDown (x : Double) (k : Nat) : Double :=
  if _h : k ≤ maxPower then x / powerOfTen k
  else if x == .zero then x
  else scaleDown (x / powerOfTen maxPower) (k - maxPower)
termination_by k
decreasing_by simp only [maxPower] at _h ⊢; omega

/-- One product with, or quotient by, a rounded power of ten, so it may differ from the nearest
number in its last bit. -/
def toDouble? (l : NumberLiteral) : Option Double :=
  let (significand, _, left) := absorb 0 0 l.whole
  let (significand, places, _) := absorb significand 0 (l.fraction.getD [])
  let power : Int := left - places + l.exponent.getD 0
  let x := Double.ofNat significand
  let size := if 0 ≤ power then scaleUp x power.toNat else some (scaleDown x (-power).toNat)
  size.map fun y => if l.negative then -y else y

/-- An unsigned integer of 32 bits, spelled without sign, fraction and exponent. -/
def toUInt32? (l : NumberLiteral) : Option UInt32 :=
  let n := Double.digitsValue l.whole
  if l.negative || l.fraction.isSome || l.exponent.isSome || 2 ^ 32 ≤ n then none
  else some (.ofNat n)

end NumberLiteral

end LinOpt
