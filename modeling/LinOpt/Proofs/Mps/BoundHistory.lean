import LinOpt.Mps.Reader
import Mathlib.Data.List.DropRight
import Mathlib.Data.List.Induction

namespace LinOpt.Mps

/-- What a record of the bounds part says. The kind is in upper case, and the value is zero where the
kind has none. -/
structure Bound where
  kind : String
  column : String
  value : Double
deriving DecidableEq

namespace Bound

def lower? (b : Bound) : Option Double :=
  match b.kind with
  | "LO" | "LI" | "FX" => some b.value
  | "BV" => some .zero
  | "MI" | "FR" => some .negInfinity
  | _ => none

def upper? (b : Bound) : Option Double :=
  match b.kind with
  | "UP" | "UI" | "FX" => some b.value
  | "BV" => some .one
  | "PL" | "FR" => some .infinity
  | _ => none

def isUpper (b : Bound) : Bool := b.kind == "UP" || b.kind == "UI"

/-- A negative upper bound, which does not leave a lower bound of zero beside it. -/
def frees (b : Bound) : Bool := b.isUpper && b.value.numLt .zero

def newLower (b : Bound) (lower : Double) : Double :=
  b.lower?.getD (if b.frees && lower == .zero then .negInfinity else lower)

def isLower (b : Bound) : Bool := b.kind == "LO" || b.kind == "LI"

theorem given_of_isLower {b : Bound} (h : b.isLower = true) :
    b.lower? = some b.value ∧ b.upper? = none := by
  rw [isLower, Bool.or_eq_true, beq_iff_eq, beq_iff_eq] at h
  rcases h with h | h <;> simp [lower?, upper?, h]

theorem given_of_isUpper {b : Bound} (h : b.isUpper = true) :
    b.lower? = none ∧ b.upper? = some b.value := by
  rw [isUpper, Bool.or_eq_true, beq_iff_eq, beq_iff_eq] at h
  rcases h with h | h <;> simp [lower?, upper?, h]

theorem newLower_of_isUpper {b : Bound} (h : b.isUpper = true) (lower : Double) :
    b.newLower lower =
      if b.value.numLt .zero && lower == .zero then .negInfinity else lower := by
  rw [newLower, (given_of_isUpper h).1, frees, h, Bool.true_and]
  rfl

end Bound

def lastGiven (bound? : Bound → Option Double) (bs : List Bound) : Option Double :=
  (bs.filterMap bound?).getLast?

def givenLower (bs : List Bound) : Option Double := lastGiven Bound.lower? bs

def afterLower (bs : List Bound) : List Bound := bs.rtakeWhile (·.lower?.isNone)

/-- The lower bound that was given last, or zero, unless it is zero and was freed since. -/
def lowerOf (bs : List Bound) : Double :=
  let given := (givenLower bs).getD .zero
  if given == .zero && (afterLower bs).any (·.frees) then .negInfinity else given

def upperOf (bs : List Bound) : Double := (lastGiven Bound.upper? bs).getD .infinity

theorem negInfinity_beq_zero : (Double.negInfinity == Double.zero) = false := by decide +kernel

theorem lastGiven_concat (bound? : Bound → Option Double) (bs : List Bound) (b : Bound) :
    lastGiven bound? (bs ++ [b]) = (bound? b).or (lastGiven bound? bs) := by
  rw [lastGiven, List.filterMap_append]
  cases h : bound? b <;> simp [lastGiven, h]

theorem lowerOf_concat (bs : List Bound) (b : Bound) : lowerOf (bs ++ [b]) = b.newLower (lowerOf bs) := by
  rw [lowerOf, givenLower, lastGiven_concat, ← givenLower, afterLower, Bound.newLower]
  cases h : b.lower? with
  | some l =>
      rw [List.rtakeWhile_concat_neg _ _ _ (by simp [h])]
      simp
  | none =>
      rw [List.rtakeWhile_concat_pos _ _ _ (by simp [h]), ← afterLower, List.any_append, lowerOf]
      cases hzero : (givenLower bs).getD .zero == .zero with
      | false => simp [hzero]
      | true => cases (afterLower bs).any (·.frees) <;> simp [hzero, negInfinity_beq_zero]

theorem upperOf_concat (bs : List Bound) (b : Bound) :
    upperOf (bs ++ [b]) = b.upper?.getD (upperOf bs) := by
  rw [upperOf, lastGiven_concat, upperOf]
  cases b.upper? <;> rfl

theorem lowerOf_append (bs cs : List Bound) :
    lowerOf (bs ++ cs) = cs.foldl (fun l b => b.newLower l) (lowerOf bs) := by
  induction cs using List.reverseRecOn with
  | nil => simp
  | append_singleton cs b ih => rw [← List.append_assoc, lowerOf_concat, ih, List.foldl_concat]

theorem upperOf_append (bs cs : List Bound) :
    upperOf (bs ++ cs) = cs.foldl (fun u b => b.upper?.getD u) (upperOf bs) := by
  induction cs using List.reverseRecOn with
  | nil => simp
  | append_singleton cs b ih => rw [← List.append_assoc, upperOf_concat, ih, List.foldl_concat]

/-- The bounds of a column are what its records say. -/
structure Follows (bs : List Bound) (c : Column) : Prop where
  lower : c.lower = lowerOf bs
  upper : c.upper = upperOf bs

theorem Follows.concat {bs : List Bound} {c c' : Column} (hc : Follows bs c) {b : Bound}
    (h : Reading.setBound b.kind b.value c = .ok c') : Follows (bs ++ [b]) c' := by
  obtain ⟨kind, name, x⟩ := b
  have hstep : c'.lower = Bound.newLower ⟨kind, name, x⟩ c.lower ∧
      c'.upper = (Bound.upper? ⟨kind, name, x⟩).getD c.upper := by
    rw [Reading.setBound.eq_def] at h
    dsimp only at h
    split at h <;> cases h <;> exact ⟨rfl, rfl⟩
  exact ⟨by rw [lowerOf_concat, ← hc.lower, hstep.1], by rw [upperOf_concat, ← hc.upper, hstep.2]⟩

section

variable {bs : List Bound} {b : Bound}

theorem lowerOf_beq_zero : (lowerOf bs == .zero) = true ↔
    (∀ l ∈ givenLower bs, (l == .zero) = true) ∧ (afterLower bs).any (·.frees) = false := by
  have hgiven : ((givenLower bs).getD .zero == .zero) = true ↔
      ∀ l ∈ givenLower bs, (l == .zero) = true := by
    cases givenLower bs with
    | none => exact iff_of_true (by decide +kernel) nofun
    | some l => simp
  rw [← hgiven, lowerOf]
  cases hzero : (givenLower bs).getD .zero == .zero with
  | false => simp [hzero]
  | true => cases (afterLower bs).any (·.frees) <;> simp [hzero, negInfinity_beq_zero]

theorem lowerOf_concat_ne_iff (hb : b.isUpper = true) : lowerOf (bs ++ [b]) ≠ lowerOf bs ↔
    b.value.numLt .zero = true ∧ (∀ l ∈ givenLower bs, (l == .zero) = true) ∧
      (afterLower bs).any (·.frees) = false := by
  rw [← lowerOf_beq_zero, lowerOf_concat, Bound.newLower_of_isUpper hb, ← Bool.and_eq_true]
  split
  case isTrue hboth =>
    refine iff_of_true (fun heq => ?_) hboth
    rw [← heq, negInfinity_beq_zero, Bool.and_false] at hboth
    cases hboth
  case isFalse hnot => exact iff_of_false (fun hne => hne rfl) hnot

theorem lowerOf_of_given {l : Double} (h : givenLower bs = some l)
    (hkeep : ¬ ((l == .zero) = true ∧ (afterLower bs).any (·.frees) = true)) : lowerOf bs = l := by
  rw [lowerOf, h, Option.getD_some, if_neg]
  rwa [Bool.and_eq_true]

variable {lo up : Bound}

theorem lowerOf_exchange (hlo : lo.isLower = true) (hup : up.isUpper = true)
    (hkeep : ¬ ((lo.value == .zero) = true ∧ up.value.numLt .zero = true)) (before after : List Bound) :
    lowerOf (before ++ lo :: up :: after) = lowerOf (before ++ up :: lo :: after) := by
  have hlower (l : Double) : lo.newLower l = lo.value := by
    rw [Bound.newLower, (Bound.given_of_isLower hlo).1, Option.getD_some]
  have hupper : up.newLower lo.value = lo.value := by
    rw [Bound.newLower_of_isUpper hup, if_neg]
    rw [Bool.and_eq_true, and_comm]
    exact hkeep
  rw [lowerOf_append, lowerOf_append]
  simp only [List.foldl_cons, hlower, hupper]

theorem upperOf_exchange (hlo : lo.isLower = true) (hup : up.isUpper = true)
    (before after : List Bound) :
    upperOf (before ++ lo :: up :: after) = upperOf (before ++ up :: lo :: after) := by
  rw [upperOf_append, upperOf_append]
  simp only [List.foldl_cons, (Bound.given_of_isLower hlo).2, (Bound.given_of_isUpper hup).2,
    Option.getD_some, Option.getD_none]

end

end LinOpt.Mps
