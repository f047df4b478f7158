import LinOpt.Double.Rounding

namespace LinOpt.Double

/-- Each operation is the exact result, rounded once. An operand that is no number is passed on, the
left one first. -/
def add (x y : Double) : Double :=
  if x.isNaN then x
  else if y.isNaN then y
  else if x.isInfinite then if y.isInfinite && x.isNegative != y.isNegative then invalid else x
  else if y.isInfinite then y
  else
    let sum := x.units + y.units
    if sum = 0 then ofParts (x.isNegative && y.isNegative) 0
    else nearest (decide (sum < 0)) sum.natAbs 1

def sub (x y : Double) : Double :=
  if x.isNaN then x else if y.isNaN then y else add x (-y)

def mul (x y : Double) : Double :=
  let negative := x.isNegative != y.isNegative
  if x.isNaN then x
  else if y.isNaN then y
  else if x.isInfinite || y.isInfinite then
    if x.magnitude = 0 || y.magnitude = 0 then invalid else ofParts negative infinite
  else nearest negative (unitsOf x.magnitude * unitsOf y.magnitude) scale

def div (x y : Double) : Double :=
  let negative := x.isNegative != y.isNegative
  if x.isNaN then x
  else if y.isNaN then y
  else if x.isInfinite then if y.isInfinite then invalid else ofParts negative infinite
  else if y.isInfinite then ofParts negative 0
  else if y.magnitude = 0 then
    if x.magnitude = 0 then invalid else ofParts negative infinite
  else nearest negative (unitsOf x.magnitude * scale) (unitsOf y.magnitude)

/-- The remainder of division toward zero; it keeps the sign of the dividend and is exact. -/
def mod (x y : Double) : Double :=
  if x.isNaN then x
  else if y.isNaN then y
  else if x.isInfinite || y.magnitude = 0 then invalid
  else if y.isInfinite then x
  else nearest x.isNegative (unitsOf x.magnitude % unitsOf y.magnitude) 1

instance : Add Double := ⟨add⟩
instance : Sub Double := ⟨sub⟩
instance : Mul Double := ⟨mul⟩
instance : Div Double := ⟨div⟩
instance : Mod Double := ⟨mod⟩

/-- The nearest integer, halves away from zero. An infinity has more units than any finite number,
so a later clamp treats it well. -/
def roundAway (x : Double) : Int :=
  let m : Int := (2 * unitsOf x.magnitude + scale) / (2 * scale)
  if x.isNegative then -m else m

def floor? (x : Double) : Option Int :=
  if x.isFinite then some (x.units.fdiv scale) else none

def ceil? (x : Double) : Option Int :=
  if x.isFinite then some (-(-x.units).fdiv scale) else none

def whole? (x : Double) : Option Int :=
  if x.isFinite && x.units.emod scale == 0 then some (x.units.fdiv scale) else none

end LinOpt.Double
