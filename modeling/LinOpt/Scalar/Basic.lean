import LinOpt.Double.Arithmetic
import LinOpt.Double.Text

namespace LinOpt

/-- A domain of numbers, ordered by an integer rank; values of one rank are equal. -/
class Scalar (S : Type) extends Add S, Sub S where
  zero : S
  one : S
  rank : S → Int
  toDouble : S → Double
  ofDouble : Double → S
  /-- The value as a bound; the extremes of the integers stand for an open side. -/
  toBound : S → Double := toDouble
  text : S → String

namespace Scalar

variable {S : Type} [Scalar S]

def compare (a b : S) : Ordering := Ord.compare (rank a) (rank b)

def same (a b : S) : Bool := rank a == rank b

def le (a b : S) : Bool := decide (rank a ≤ rank b)

def lt (a b : S) : Bool := decide (rank a < rank b)

end Scalar

/-- The rank of a real is its place in the total order of patterns, with one zero. So a number
without value, too, equals itself and has a place among the others. -/
instance : Scalar Double where
  zero := .zero
  one := .one
  rank x := x.canonical.position
  toDouble := id
  ofDouble := id
  text := Double.text

/-- The nearest integer of 64 bits, halves away from zero; no number becomes zero. -/
def Double.toInt64 (x : Double) : Int64 :=
  if x.isNaN then 0
  else .ofInt (max Int64.minValue.toInt (min Int64.maxValue.toInt x.roundAway))

instance : Scalar Int64 where
  zero := 0
  one := 1
  rank := Int64.toInt
  toDouble n := .ofInt n.toInt
  ofDouble := Double.toInt64
  toBound n :=
    if n = Int64.minValue then .negInfinity
    else if n = Int64.maxValue then .infinity
    else .ofInt n.toInt
  text n := toString n.toInt

structure Bit where
  isOne : Bool
deriving DecidableEq, Inhabited

namespace Bit

def value (b : Bit) : Int := if b.isOne then 1 else 0

def add (a b : Bit) : Bit := ⟨a.isOne ^^ b.isOne⟩

def ofDouble (x : Double) : Bit := ⟨x.toInt64.toInt % 2 == 1⟩

end Bit

instance : Scalar Bit where
  add := Bit.add
  sub := Bit.add
  zero := ⟨false⟩
  one := ⟨true⟩
  rank := Bit.value
  toDouble b := .ofInt b.value
  ofDouble := Bit.ofDouble
  text b := toString b.value

end LinOpt
