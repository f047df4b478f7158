import LinOpt.Mps.Writer
import LinOpt.Proofs.Double.Arithmetic
import Mathlib.Data.List.Forall2

namespace LinOpt.Mps

/-- The columns that occur exist, bounds are in order, and nothing is NaN. A row with the name of a
marker would be taken for one. -/
structure Writable (p : Program) : Prop where
  terms_lt : ∀ r ∈ p.rows, ∀ t ∈ r.terms, t.1 < p.columns.length
  objective_lt : ∀ t ∈ p.objective, t.1 < p.columns.length
  column_bounds : ∀ c ∈ p.columns, c.lower.numLe c.upper = true
  row_bounds : ∀ r ∈ p.rows, r.lower.numLe r.upper = true
  coefficients : ∀ r ∈ p.rows, ∀ t ∈ r.terms, t.2.isNaN = false
  costs : ∀ j < p.columns.length, (p.cost j).isNaN = false
  offset : p.offset.isNaN = false
  no_marker : ∀ r ∈ p.rows, r.name ≠ "'MARKER'"

/-- A binary column with other bounds than zero and one is only integral in the text. -/
def kindBack (c : Column) : VariableKind :=
  if c.kind = .binary && !(c.lower == .zero && c.upper == .one) then .integer else c.kind

/-- Of two different finite bounds the text has the lower one and the width. -/
def upperBack (r : Row) : Double :=
  if !(r.lower == r.upper) && r.lower.isFinite && r.upper.isFinite then
    r.lower + (r.upper - r.lower)
  else r.upper

/-- The objective in the text: a column of cost zero is in it only if it is nowhere else. -/
def costBack (p : Program) (j : Nat) : List (Nat × Double) :=
  if p.cost j == .zero then
    if p.rows.any fun r => r.terms.any (·.1 == j) then [] else [(j, .zero)]
  else [(j, p.cost j)]

structure ColumnBack (c d : Column) : Prop where
  name : d.name = c.name
  lower : (d.lower == c.lower) = true
  upper : (d.upper == c.upper) = true
  kind : d.kind = kindBack c

structure RowBack (r s : Row) : Prop where
  name : s.name = r.name
  terms : s.terms = r.terms.mergeSort fun t u => t.1 ≤ u.1
  lower : (s.lower == r.lower) = true
  upper : (s.upper == upperBack r) = true

structure ReadsBack (p q : Program) : Prop where
  name : q.name = title p
  columns : List.Forall₂ ColumnBack p.columns q.columns
  rows : List.Forall₂ RowBack p.rows q.rows
  objective : q.objective = (List.range p.columns.length).flatMap (costBack p)
  cost : ∀ j, (q.cost j == p.cost j) = true
  offset : (q.offset == p.offset) = true
  maximize : q.maximize = p.maximize

end LinOpt.Mps
