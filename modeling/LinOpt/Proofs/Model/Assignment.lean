import LinOpt.Model.Basic
import LinOpt.Proofs.Double.Integers
import LinOpt.Search.OfProgram

namespace LinOpt

abbrev Assignment := Variable Int64 → Int64

/-- The sum at an assignment, without wrapping. -/
def LinearSum.valueAt (s : LinearSum Int64 Int64) (x : Assignment) : Int :=
  (s.terms.entries.map fun e => e.2.toInt * (x e.1).toInt).sum

/-- The sum is within the bounds; the extremes on their own side are open. -/
structure Constraint.Satisfied (c : Constraint Int64 Int64) (x : Assignment) : Prop where
  lower : c.interval.lower ≠ Int64.minValue → c.interval.lower.toInt ≤ c.sum.valueAt x
  upper : c.interval.upper ≠ Int64.maxValue → c.sum.valueAt x ≤ c.interval.upper.toInt

structure Model.Satisfied (m : Model Int64 Int64) (x : Assignment) : Prop where
  intervals : ∀ v ∈ m.variables, v.interval.lower ≤ x v ∧ x v ≤ v.interval.upper
  constraints : ∀ c ∈ m.constraints, c.Satisfied x

/-- The integer keeps its value when it becomes a bound. In particular it is no open side. -/
def HeldAsBound (n : Int64) : Prop := (Scalar.toBound n : Double).Holds n.toInt

/-- The bounds keep their values, and if the interval is narrow enough for a search, so does every
integer in it. -/
structure Interval.Held (i : Interval Int64) : Prop where
  lower : HeldAsBound i.lower
  upper : HeldAsBound i.upper
  between : i.upper.toInt - i.lower.toInt < Search.maxDomainSize →
    ∀ n : Int, i.lower.toInt ≤ n → n ≤ i.upper.toInt → (Double.ofInt n).Holds n

/-- An open side is refused by the search, so nothing is asked of such an interval. -/
def Interval.OpenOrHeld (i : Interval Int64) : Prop :=
  i.lower = Int64.minValue ∨ i.upper = Int64.maxValue ∨ i.Held

structure Constraint.Held (c : Constraint Int64 Int64) : Prop where
  coefficients : ∀ e ∈ c.sum.terms.entries, (Scalar.toDouble e.2 : Double).Holds e.2.toInt
  lower : c.interval.lower = Int64.minValue ∨ HeldAsBound c.interval.lower
  upper : c.interval.upper = Int64.maxValue ∨ HeldAsBound c.interval.upper

/-- Nothing that decides about feasibility is rounded. -/
structure Model.Held (m : Model Int64 Int64) : Prop where
  intervals : ∀ v ∈ m.variables, v.interval.OpenOrHeld
  constraints : ∀ c ∈ m.constraints, c.Held

theorem toBound_minValue : (Scalar.toBound Int64.minValue : Double) = .negInfinity := rfl

theorem toBound_maxValue : (Scalar.toBound Int64.maxValue : Double) = .infinity := rfl

theorem heldAsBound_of_lt {n : Int64} (h : n.toInt.natAbs < 2 ^ 53) : HeldAsBound n := by
  have hmin : n ≠ Int64.minValue := by
    rintro rfl
    revert h
    decide
  have hmax : n ≠ Int64.maxValue := by
    rintro rfl
    revert h
    decide
  have hbound : (Scalar.toBound n : Double) = .ofInt n.toInt :=
    (if_neg hmin).trans (if_neg hmax)
  rw [HeldAsBound, hbound]
  exact Double.ofInt_holds_of_lt h

theorem Interval.held_of_lt {i : Interval Int64} (hl : i.lower.toInt.natAbs < 2 ^ 53)
    (hu : i.upper.toInt.natAbs < 2 ^ 53) : i.Held :=
  ⟨heldAsBound_of_lt hl, heldAsBound_of_lt hu, fun _ _ hln hnu =>
    Double.ofInt_holds_of_lt (by omega)⟩

end LinOpt
