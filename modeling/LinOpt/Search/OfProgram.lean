import LinOpt.Double.Text
import LinOpt.Program.Basic
import LinOpt.Search.Problem

namespace LinOpt.Search

/-- Why a linear program is no integer problem. -/
inductive Refusal
  | wideDomain (column : String)
  | fractionalCoefficient (x : Double)
  | coefficientOverflow (row : String)
  | activityOverflow (row : String)
  | fractionalBound (x : Double)
  | fractionalCost (x : Double)
  | costOverflow
  | fractionalOffset
  | objectiveOverflow
deriving DecidableEq

def maxDomainSize : Nat := 1000000

def Refusal.message : Refusal → String
  | wideDomain column => s!"domain of {column} is unbounded or wider than {maxDomainSize}"
  | fractionalCoefficient x => s!"coefficient {x.text} is not integral"
  | coefficientOverflow row => s!"coefficients of row {row} overflow"
  | activityOverflow row => s!"activity of row {row} overflows"
  | fractionalBound x => s!"bound {x.text} is not integral"
  | fractionalCost x => s!"objective coefficient {x.text} is not integral"
  | costOverflow => "objective coefficients overflow"
  | fractionalOffset => "offset is not integral"
  | objectiveOverflow => "objective value overflows"

def largestInt : Int := 2 ^ 127 - 1

def smallestInt : Int := -2 ^ 127

def fits (n : Int) : Bool := decide (smallestInt ≤ n ∧ n ≤ largestInt)

def fits64 (n : Int) : Bool := decide (-2 ^ 63 ≤ n ∧ n < 2 ^ 63)

/-- The integer that a number without a fraction is, or the extreme of 128 bits on its side. -/
def integral? (x : Double) : Option Int :=
  x.whole?.map fun n => max smallestInt (min largestInt n)

def domain? (c : Column) : Option Domain :=
  match c.lower.ceil?, c.upper.floor? with
  | some l, some u =>
    if fits64 l && fits64 u && decide (u - l < maxDomainSize) then some ⟨l, u⟩ else none
  | _, _ => none

def domainOf (c : Column) : Except Refusal Domain :=
  match domain? c with
  | some d => .ok d
  | none => .error (.wideDomain c.name)

/-- An infinite bound is an open side, whichever side it is on. -/
def bound (x : Double) : Except Refusal (Option Int) :=
  if x.isInfinite then .ok none
  else
    match integral? x with
    | some n => .ok (some n)
    | none => .error (.fractionalBound x)

def addTerm (fraction : Double → Refusal) (overflow : Refusal) (sums : List Int)
    (t : Nat × Double) : Except Refusal (List Int) :=
  match integral? t.2 with
  | none => .error (fraction t.2)
  | some c =>
    let sum := sums.getD t.1 0 + c
    if fits sum then .ok (sums.set t.1 sum) else .error overflow

def gather (fraction : Double → Refusal) (overflow : Refusal) (n : Nat)
    (terms : List (Nat × Double)) : Except Refusal (List Int) :=
  terms.foldlM (addTerm fraction overflow) (List.replicate n 0)

/-- The largest size that each product, with coefficients and values from the domains, can have,
added up. Every partial sum of the search stays within it. -/
def sizeBound : List Int → List Domain → Nat
  | c :: cs, d :: ds => max (c * d.lower).natAbs (c * d.upper).natAbs + sizeBound cs ds
  | _, _ => 0

def rowOf (domains : List Domain) (r : Row) : Except Refusal LinearRow := do
  let cs ← gather .fractionalCoefficient (.coefficientOverflow r.name) domains.length r.terms
  if largestInt < sizeBound cs domains then throw (.activityOverflow r.name)
  return ⟨cs, ← bound r.lower, ← bound r.upper⟩

def Problem.ofProgram (p : Program) : Except Refusal Problem := do
  let domains ← p.columns.mapM domainOf
  let rows ← p.rows.mapM (rowOf domains)
  let objective ← gather .fractionalCost .costOverflow domains.length p.objective
  match integral? p.offset with
  | none => throw .fractionalOffset
  | some offset =>
    if largestInt < offset.natAbs + sizeBound objective domains then throw .objectiveOverflow
    return { domains, rows, objective, offset, maximize := p.maximize }

end LinOpt.Search
