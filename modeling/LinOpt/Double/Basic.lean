namespace LinOpt

-- powers are those of `Nat.pow` and `Int.pow`, whatever other instances a module sees
attribute [instance (high), default_instance 20000] instPowNat

/-- Floating-point numbers of 64 bits, held as bit patterns. The lower 63 bits are the magnitude,
the top bit the sign. A magnitude stands for a whole number of units of `2 ^ -1074`, so that every
rule about numbers is one about integers. -/
structure Double where
  bits : UInt64
deriving DecidableEq, Inhabited

namespace Double

def ofParts (negative : Bool) (magnitude : Nat) : Double :=
  ⟨UInt64.ofNat (magnitude + if negative then 2 ^ 63 else 0)⟩

def isNegative (x : Double) : Bool := decide (2 ^ 63 ≤ x.bits.toNat)

def magnitude (x : Double) : Nat := x.bits.toNat % 2 ^ 63

/-- The magnitude of an infinity. Finite numbers lie below it, everything above it is no number. -/
def infinite : Nat := 2047 * 2 ^ 52

def isNaN (x : Double) : Bool := decide (infinite < x.magnitude)

def isInfinite (x : Double) : Bool := decide (x.magnitude = infinite)

def isFinite (x : Double) : Bool := decide (x.magnitude < infinite)

def zero : Double := ofParts false 0

def one : Double := ofParts false (1023 * 2 ^ 52)

def infinity : Double := ofParts false infinite

def negInfinity : Double := ofParts true infinite

def largest : Double := ofParts false (infinite - 1)

def nan : Double := ofParts false (infinite + 2 ^ 51)

/-- What an operation without a meaningful result answers. -/
def invalid : Double := ofParts true (infinite + 2 ^ 51)

def neg (x : Double) : Double := ofParts (!x.isNegative) x.magnitude

def abs (x : Double) : Double := ofParts false x.magnitude

instance : Neg Double := ⟨neg⟩

/-- The number of units in one. -/
def scale : Nat := 2 ^ 1074

/-- The units that a magnitude stands for. The spacing is one unit up to `2 ^ 53` and doubles with
each further exponent; an infinity gets `2 ^ 2098` units, more than any finite number. -/
def unitsOf (m : Nat) : Nat :=
  if m < 2 ^ 53 then m else (2 ^ 52 + m % 2 ^ 52) * 2 ^ (m / 2 ^ 52 - 1)

def units (x : Double) : Int :=
  if x.isNegative then -(unitsOf x.magnitude : Int) else unitsOf x.magnitude

/-- Numeric comparison: the two zeros are equal, and nothing equals what is no number. -/
def numEq (x y : Double) : Bool := !x.isNaN && !y.isNaN && x.units == y.units

def numLt (x y : Double) : Bool := !x.isNaN && !y.isNaN && decide (x.units < y.units)

instance : BEq Double := ⟨numEq⟩

/-- Position in the total order of all bit patterns: negative ones first, in falling magnitude. -/
def position (x : Double) : Int :=
  if x.isNegative then -(x.magnitude : Int) - 1 else x.magnitude

def canonical (x : Double) : Double := if x.magnitude = 0 then zero else x

end Double

end LinOpt
