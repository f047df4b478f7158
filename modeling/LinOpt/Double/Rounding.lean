import LinOpt.Double.Basic

namespace LinOpt.Double

def roundHalfEven (num den : Nat) : Nat :=
  let q := num / den
  let r := num % den
  if 2 * r < den then q else if den < 2 * r then q + 1 else q + q % 2

/-- The magnitude nearest to `num / den` units. Numbers above `2 ^ 53` units keep 53 significant
bits; a significand that rounds up to `2 ^ 53` carries into the exponent by itself. -/
def nearestMagnitude (num den : Nat) : Nat :=
  let shift := (num / den).log2 - 52
  min (shift * 2 ^ 52 + roundHalfEven num (den * 2 ^ shift)) infinite

def nearest (negative : Bool) (num den : Nat) : Double :=
  ofParts negative (nearestMagnitude num den)

def ofNat (n : Nat) : Double := nearest false (n * scale) 1

def ofInt (n : Int) : Double := nearest (decide (n < 0)) (n.natAbs * scale) 1

def decimalMagnitude (digits : Nat) (exponent : Int) : Nat :=
  if 0 ≤ exponent then nearestMagnitude (digits * 10 ^ exponent.toNat * scale) 1
  else nearestMagnitude (digits * scale) (10 ^ (-exponent).toNat)

end LinOpt.Double
