import LinOpt.Model.Error
import LinOpt.Scalar.Basic

namespace LinOpt

structure Interval (S : Type) where
  lower : S
  upper : S

namespace Interval

variable {S : Type} [Scalar S]

/-- Refuses crossed bounds and bounds that are no number. -/
def new (lower upper : S) : Except BuildError (Interval S) :=
  if Scalar.lt upper lower || (Scalar.toDouble lower).isNaN || (Scalar.toDouble upper).isNaN then
    .error (.inadmissibleBounds (Scalar.text lower) (Scalar.text upper))
  else .ok ⟨lower, upper⟩

def point (value : S) : Interval S := ⟨value, value⟩

def binary : Interval S := ⟨Scalar.zero, Scalar.one⟩

def nonNegative : Interval Double := ⟨.zero, .infinity⟩

def unbounded : Interval Double := ⟨.negInfinity, .infinity⟩

def contains (i : Interval S) (value : S) : Bool :=
  Scalar.le i.lower value && Scalar.le value i.upper

def compare (i j : Interval S) : Ordering :=
  (Scalar.compare i.lower j.lower).then (Scalar.compare i.upper j.upper)

def text (i : Interval S) : String := s!"[{Scalar.text i.lower}, {Scalar.text i.upper}]"

end Interval

end LinOpt
