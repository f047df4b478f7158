import LinOpt.Mps.Writer
import LinOpt.Proofs.Double.Whole
import LinOpt.Proofs.Program.OfModel
import LinOpt.Proofs.Scalar.Lawful

namespace LinOpt

/-- A domain whose bounds are numbers where its values are. -/
class NumberedScalar (S : Type) [Scalar S] : Prop extends LawfulScalar S where
  isNaN_toBound (a : S) : (Scalar.toBound a).isNaN = (Scalar.toDouble a).isNaN
  isNaN_zero : (Scalar.toDouble (Scalar.zero : S)).isNaN = false
  isNaN_one : (Scalar.toDouble (Scalar.one : S)).isNaN = false

instance : NumberedScalar Double where
  isNaN_toBound _ := rfl
  isNaN_zero := rfl
  isNaN_one := rfl

instance : NumberedScalar Int64 where
  isNaN_toBound n := (isNaN_toBound_int64 n).trans (Double.isNaN_ofInt n.toInt).symm
  isNaN_zero := Double.isNaN_ofInt 0
  isNaN_one := Double.isNaN_ofInt 1

instance : NumberedScalar Bit where
  isNaN_toBound _ := rfl
  isNaN_zero := Double.isNaN_ofInt 0
  isNaN_one := Double.isNaN_ofInt 1

/-- Neither bound is finite, and they differ. -/
def OpenBounds (lower upper : Double) : Prop :=
  (lower == upper) = false ∧ lower.isFinite = false ∧ upper.isFinite = false

theorem openBounds_of_isNaN {x : Double} (h : x.isNaN = true) : OpenBounds x x := by
  have hfinite : x.isFinite = false := by
    by_contra hx
    rw [Double.isNaN_of_isFinite (Bool.eq_true_of_not_eq_false hx)] at h
    cases h
  refine ⟨Bool.eq_false_iff.mpr fun heq => ?_, hfinite, hfinite⟩
  rw [(Double.numEq_iff.mp heq).1] at h
  cases h

theorem openBounds_iff {lower upper : Double} (h : lower.numLe upper = true) :
    OpenBounds lower upper ↔ lower = .negInfinity ∧ upper = .infinity := by
  constructor
  · rintro ⟨hne, hl, hu⟩
    have hlt := Double.numLt_of_numLe h hne
    exact ⟨Double.eq_negInfinity_of_numLt hlt hl, Double.eq_infinity_of_numLt hlt hu⟩
  · rintro ⟨rfl, rfl⟩
    exact ⟨by decide +kernel, by decide, by decide⟩

namespace Interval

theorem Built.nonNegative : Interval.nonNegative.Built := .of_le (by decide) rfl rfl

theorem Built.unbounded : Interval.unbounded.Built := .of_le (by decide) rfl rfl

section

variable {S : Type} [Scalar S]

/-- Both sides are open as bounds. -/
structure Unbounded (i : Interval S) : Prop where
  below : Scalar.toBound i.lower = .negInfinity
  above : Scalar.toBound i.upper = .infinity

/-- The point of what is no number. -/
def Void (i : Interval S) : Prop := ∃ x, (Scalar.toDouble x).isNaN = true ∧ i = .point x

end

theorem unbounded_iff_real {i : Interval Double} : i.Unbounded ↔ i = .unbounded := by
  cases i
  exact ⟨fun ⟨hl, hu⟩ => congrArg₂ Interval.mk hl hu, fun h => by cases h; exact ⟨rfl, rfl⟩⟩

theorem toBound_int64 (n : Int64) : n = Int64.minValue ∨ n = Int64.maxValue ∨
    (Scalar.toBound n).isFinite = true := by
  have hl := n.le_toInt
  have hu := n.toInt_lt
  obtain ⟨k, hk, -⟩ := Double.exists_ofInt_holds (n := n.toInt) (by omega) (by omega)
  by_cases hmin : n = Int64.minValue
  · exact .inl hmin
  · by_cases hmax : n = Int64.maxValue
    · exact .inr (.inl hmax)
    · have hbound : (Scalar.toBound n : Double) = .ofInt n.toInt :=
        (if_neg hmin).trans (if_neg hmax)
      exact .inr (.inr (hbound ▸ hk.1))

theorem unbounded_iff_int64 {i : Interval Int64} :
    i.Unbounded ↔ i = ⟨Int64.minValue, Int64.maxValue⟩ := by
  rcases i with ⟨l, u⟩
  constructor
  · rintro ⟨hl, hu⟩
    change Scalar.toBound l = _ at hl
    change Scalar.toBound u = _ at hu
    have hlower : l = Int64.minValue := by
      rcases toBound_int64 l with h | rfl | h
      · exact h
      · exact absurd hl (by decide)
      · exact absurd (hl ▸ h) (by decide)
    have hupper : u = Int64.maxValue := by
      rcases toBound_int64 u with rfl | h | h
      · exact absurd hu (by decide)
      · exact h
      · exact absurd (hu ▸ h) (by decide)
    rw [hlower, hupper]
  · intro h
    cases h
    exact ⟨rfl, rfl⟩

theorem not_unbounded_bit (i : Interval Bit) : ¬ i.Unbounded := by
  have hfinite : ∀ b : Bool, (Scalar.toBound (⟨b⟩ : Bit)).isFinite = true := by decide +kernel
  intro h
  exact absurd (h.below ▸ hfinite i.lower.isOne) (by decide)

variable {S : Type} [Scalar S] [NumberedScalar S] {i : Interval S}

theorem Built.numeric_iff (h : i.Built) : i.Numeric ↔ ¬ i.Void := by
  constructor
  · rintro hnumeric ⟨x, hx, rfl⟩
    exact absurd (hnumeric.lower.symm.trans hx) Bool.false_ne_true
  · intro hvoid
    cases h with
    | @new lower upper _ h =>
        rw [Interval.new] at h
        split at h
        case isTrue => cases h
        case isFalse hno =>
          cases h
          simp only [Bool.or_eq_true, not_or, Bool.not_eq_true] at hno
          exact ⟨hno.1.2, hno.2⟩
    | point x =>
        have hx : (Scalar.toDouble x).isNaN = false :=
          Bool.eq_false_iff.mpr fun hx => hvoid ⟨x, hx, rfl⟩
        exact ⟨hx, hx⟩
    | binary => exact ⟨NumberedScalar.isNaN_zero, NumberedScalar.isNaN_one⟩

/-- What the bounds of a column or row are to the interval that they come from, and when it is
written as free. -/
structure Exports (i : Interval S) (lower upper : Double) (free : Prop) : Prop where
  ordered : lower.numLe upper = true ↔ ¬ i.Void
  free_iff : free ↔ i.Unbounded ∨ i.Void

theorem Built.exports (h : i.Built) : i.Exports (Scalar.toBound i.lower) (Scalar.toBound i.upper)
    (OpenBounds (Scalar.toBound i.lower) (Scalar.toBound i.upper)) := by
  by_cases hvoid : i.Void
  · obtain ⟨x, hx, rfl⟩ := id hvoid
    have hnan : (Scalar.toBound x).isNaN = true := (NumberedScalar.isNaN_toBound x).trans hx
    refine ⟨⟨fun hle => ?_, fun hno => absurd hvoid hno⟩, fun _ => .inr hvoid, fun _ =>
      openBounds_of_isNaN hnan⟩
    exact absurd ((Double.numLe_iff.mp hle).1.symm.trans hnan) Bool.false_ne_true
  · have hle := h.toBound_le (h.numeric_iff.mpr hvoid)
    refine ⟨⟨fun _ => hvoid, fun _ => hle⟩, ?_⟩
    rw [openBounds_iff hle, or_iff_left hvoid]
    exact ⟨fun h => ⟨h.1, h.2⟩, fun h => ⟨h.below, h.above⟩⟩

end Interval

namespace Mps

theorem rowLetter_eq_free {r : Row} : rowLetter r = "N" ↔ OpenBounds r.lower r.upper := by
  rw [rowLetter, OpenBounds]
  cases r.lower == r.upper <;> cases r.lower.isFinite <;> cases r.upper.isFinite <;> decide

theorem boundLines_eq_free {c : Column} :
    boundLines c = [boundLine "FR" c.name] ↔ OpenBounds c.lower c.upper := by
  rw [boundLines, OpenBounds]
  split
  case isTrue hbinary =>
    have hzero : (c.lower == .zero) = true := by
      simp only [Bool.and_eq_true] at hbinary
      exact hbinary.1.2
    obtain ⟨hnan, -, hunits⟩ := Double.numEq_iff.mp hzero
    have hfinite := Double.isFinite_of_units_eq_zero hnan hunits
    simp [boundLine, String.ext_iff, hfinite]
  case isFalse =>
    split
    case isTrue heq => simp [valueLine, boundLine, String.ext_iff, heq]
    case isFalse heq =>
      split
      case isTrue hopen => simpa [heq] using hopen
      case isFalse hfinite => simpa [heq] using hfinite

end Mps

namespace Program

variable {S C : Type} [Scalar S] [Scalar C] [NumberedScalar S] [NumberedScalar C] {m : Model S C}
  {p : Program}

/-- Every column and every row has its bounds in order, unless its interval is the point of what is
no number, and is written as free only for an interval that is open on both sides, or such a point. -/
theorem ofModel_exports (hvs : ∀ v ∈ m.variables, v.interval.Built)
    (hcs : ∀ c ∈ m.constraints, c.interval.Built) (h : ofModel m = .ok p) :
    List.Forall₂ (fun v c => v.interval.Exports c.lower c.upper
      (Mps.boundLines c = [Mps.boundLine "FR" c.name])) m.variables p.columns ∧
    List.Forall₂ (fun c r => c.interval.Exports r.lower r.upper (Mps.rowLetter r = "N"))
      m.constraints p.rows := by
  have hflat := ofModel_eq_ok h
  constructor
  · rw [hflat.columns, List.forall₂_map_right_iff, List.forall₂_same]
    intro v hv
    rw [Mps.boundLines_eq_free]
    exact (hvs v hv).exports
  · refine ((List.forall₂_and_left _ _).mpr ⟨hcs, hflat.rows⟩).imp fun c r ⟨hc, hr⟩ => ?_
    rw [Mps.rowLetter_eq_free, hr.lower, hr.upper]
    exact hc.exports

def flow : Variable Double := ⟨"flow", .nonNegative, .continuous⟩

def looseModel : Model Double Int64 where
  «variables» := [flow, ⟨"slack", .unbounded, .continuous⟩, ⟨"hole", .point .nan, .continuous⟩,
    ⟨"valve", .binary, .binary⟩]
  constraints := [⟨LinearSum.zero.addTerm flow 3, ⟨Int64.minValue, Int64.maxValue⟩, some "any"⟩,
    ⟨LinearSum.zero.addTerm flow 1, .point 5, none⟩]
  objective := ⟨.zero, true, none⟩

theorem ofModel_exports_loose : ∃ p, ofModel looseModel = .ok p ∧
    (∀ v ∈ looseModel.variables, v.interval.Built) ∧
    (∀ c ∈ looseModel.constraints, c.interval.Built) ∧
    List.Forall₂ (fun v c => v.interval.Exports c.lower c.upper
      (Mps.boundLines c = [Mps.boundLine "FR" c.name])) looseModel.variables p.columns ∧
    List.Forall₂ (fun c r => c.interval.Exports r.lower r.upper (Mps.rowLetter r = "N"))
      looseModel.constraints p.rows := by
  have hvs : ∀ v ∈ looseModel.variables, v.interval.Built := by
    simp only [looseModel, List.forall_mem_cons]
    exact ⟨.nonNegative, .unbounded, .point _, .binary, List.forall_mem_nil _⟩
  have hcs : ∀ c ∈ looseModel.constraints, c.interval.Built := by
    simp only [looseModel, List.forall_mem_cons]
    exact ⟨.of_le (by decide) (Double.isNaN_ofInt _) (Double.isNaN_ofInt _), .point _,
      List.forall_mem_nil _⟩
  obtain ⟨p, hp⟩ : ∃ p, ofModel looseModel = .ok p := ⟨_, rfl⟩
  exact ⟨p, hp, hvs, hcs, ofModel_exports hvs hcs hp⟩

def holeModel : Model Double Double where
  «variables» := [⟨"x", .binary, .continuous⟩]
  constraints := [⟨LinearSum.zero.addTerm ⟨"x", .binary, .continuous⟩ .one, .point .nan, some "cap"⟩]
  objective := ⟨.zero, false, none⟩

/-- The constraint is written as a free row, and its bounds are in no order. -/
theorem point_nan_not_ordered : holeModel.Built ∧
    ∃ p, ofModel holeModel = .ok p ∧
      (p.rows.map fun r => (r.lower.numLe r.upper, Mps.rowLine r)) = [(false, " N  cap")] := by
  refine ⟨?_, _, rfl, by decide⟩
  exact .complete (.addConstraints (.append .empty (v := ⟨"x", .binary, .continuous⟩) .binary
    (by decide)) (List.forall_mem_singleton.mpr ⟨.addTerm .zero _ _, .point _⟩)) .zero

end Program

end LinOpt
