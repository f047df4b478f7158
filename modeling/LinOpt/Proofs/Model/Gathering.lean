import LinOpt.Model.LinearSum
import LinOpt.Proofs.Model.LookUp
import LinOpt.Proofs.Scalar.Commutative

namespace LinOpt

variable {S C : Type} [Scalar S]

def coefficientsOf (v : Variable S) (ts : List (Variable S × C)) : List C :=
  (ts.filter fun t => v.same t.1).map (·.2)

theorem coefficientsOf_append (v : Variable S) (ts us : List (Variable S × C)) :
    coefficientsOf v (ts ++ us) = coefficientsOf v ts ++ coefficientsOf v us := by
  rw [coefficientsOf, List.filter_append, List.map_append]
  rfl

theorem coefficientsOf_singleton (v w : Variable S) (c : C) :
    coefficientsOf v [(w, c)] = if Ord.compare v w = .eq then [c] else [] := by
  by_cases h : Ord.compare v w = .eq
  · have hsame : v.same w = true := beq_iff_eq.mpr h
    simp [coefficientsOf, h, hsame]
  · have hsame : v.same w = false := beq_eq_false_iff_ne.mpr h
    simp [coefficientsOf, h, hsame]

theorem coefficientsOf_ne_nil {v : Variable S} {ts : List (Variable S × C)} :
    coefficientsOf v ts ≠ [] ↔ ∃ t ∈ ts, v.same t.1 = true := by
  rw [coefficientsOf, ne_eq, List.map_eq_nil_iff, List.filter_eq_nil_iff]
  simp

variable [Scalar C]

namespace LinearSum

/-- The expression holds just these terms: one entry for each variable among them, in the order of
variables, with the sum of its coefficients. -/
structure Totals (ts : List (Variable S × C)) (s : LinearSum S C) : Prop where
  sorted : s.terms.Sorted
  coefficient : ∀ v, s.coefficient? v = Scalar.sum? (coefficientsOf v ts)

namespace Totals

variable {ts us : List (Variable S × C)} {s t : LinearSum S C}

theorem zero : Totals [] (LinearSum.zero : LinearSum S C) := ⟨.nil, fun _ => rfl⟩

theorem mem_variables (h : Totals ts s) (v : Variable S) :
    (∃ w ∈ s.variables, v.same w = true) ↔ ∃ t ∈ ts, v.same t.1 = true := by
  rw [← coefficientsOf_ne_nil, ← Scalar.isSome_sum?, ← h.coefficient v, coefficient?,
    OrderedMap.isSome_get?]
  exact exists_congr fun w => and_congr_right' beq_iff_eq

theorem same (hs : Totals ts s) (ht : Totals ts t) : s.same t = true := by
  have hentries := hs.sorted.ext ht.sorted fun v =>
    (hs.coefficient v).trans (ht.coefficient v).symm
  apply isEqv_of_forall₂ hentries
  intro a b ⟨hkey, hvalue⟩
  rw [Bool.and_eq_true]
  exact ⟨beq_iff_eq.mpr hkey, beq_iff_eq.mpr (congrArg Scalar.rank hvalue)⟩

variable [CommutativeScalar C]

theorem perm (h : ts.Perm us) (hs : Totals ts s) : Totals us s where
  sorted := hs.sorted
  coefficient v := (hs.coefficient v).trans (Scalar.sum?_perm ((h.filter _).map _))

theorem addTerm (hs : Totals ts s) (v : Variable S) (c : C) :
    Totals ((v, c) :: ts) (s.addTerm v c) where
  sorted := hs.sorted.insertWith _ v c
  coefficient w := by
    rw [← List.singleton_append, coefficientsOf_append, Scalar.sum?_append, ← hs.coefficient w,
      coefficientsOf_singleton]
    refine (hs.sorted.get?_insertWith _ v c w).trans ?_
    split
    · rw [Scalar.sum?_singleton]
      rfl
    · exact Option.merge_none_left.symm

theorem addTerms (hs : Totals ts s) (us : List (Variable S × C)) :
    Totals (ts ++ us) (s.addTerms us) := by
  induction us generalizing ts s with
  | nil =>
      rw [List.append_nil]
      exact hs
  | cons u us ih => exact (ih (hs.addTerm u.1 u.2)).perm List.perm_middle.symm

theorem ofTerms (ts : List (Variable S × C)) : Totals ts (LinearSum.ofTerms ts) :=
  zero.addTerms ts

theorem entries (hs : Totals ts s) : Totals s.terms.entries s where
  sorted := hs.sorted
  coefficient v := by
    rw [coefficient?, ← Scalar.sum?_toList (s.terms.get? v), ← hs.sorted.filter_entries v]
    rfl

theorem add (hs : Totals ts s) (ht : Totals us t) : Totals (ts ++ us) (s.add t) where
  sorted := (hs.addTerms t.terms.entries).sorted
  coefficient v := by
    rw [LinearSum.add, (hs.addTerms t.terms.entries).coefficient v, coefficientsOf_append,
      coefficientsOf_append, Scalar.sum?_append, Scalar.sum?_append, ← ht.entries.coefficient v,
      ht.coefficient v]

theorem foldl_add (hs : Totals ts s) {uss : List (List (Variable S × C))}
    {sums : List (LinearSum S C)} (h : List.Forall₂ Totals uss sums) :
    Totals (ts ++ uss.flatten) (sums.foldl LinearSum.add s) := by
  induction h generalizing ts s with
  | nil =>
      rw [List.flatten_nil, List.append_nil]
      exact hs
  | cons hu _ ih =>
      rw [List.flatten_cons, ← List.append_assoc]
      exact ih (hs.add hu)

end Totals

namespace Gathering

def Holds (g : Gathering S C) (ts : List (Variable S × C)) : Prop :=
  ∃ uss, List.Forall₂ Totals uss g.sums ∧ ts.Perm (g.terms ++ uss.flatten)

variable {g : Gathering S C} {ts us : List (Variable S × C)}

theorem Holds.empty : Holds ({} : Gathering S C) [] := ⟨[], .nil, .nil⟩

theorem Holds.append (h : g.Holds ts) (us : List (Variable S × C)) :
    Holds { g with terms := g.terms ++ us } (ts ++ us) := by
  obtain ⟨uss, hsums, hperm⟩ := h
  refine ⟨uss, hsums, (hperm.append_right us).trans ?_⟩
  rw [List.append_assoc, List.append_assoc]
  exact List.perm_append_comm.append_left g.terms

theorem Holds.addSum (h : g.Holds ts) {s : LinearSum S C} (hs : Totals us s) :
    Holds (g.addSum s) (ts ++ us) := by
  obtain ⟨uss, hsums, hperm⟩ := h
  refine ⟨uss ++ [us], List.rel_append hsums (.cons hs .nil), ?_⟩
  rw [List.flatten_append, List.flatten_singleton, ← List.append_assoc]
  exact hperm.append_right us

/-- The single terms come first in the total, which is only another order. -/
theorem Holds.total [CommutativeScalar C] (h : g.Holds ts) : Totals ts g.total := by
  obtain ⟨uss, hsums, hperm⟩ := h
  exact ((Totals.ofTerms g.terms).foldl_add hsums).perm hperm.symm

end Gathering

/-- What can be gathered: a single term, variables with their weights, or a sum that is gathered
from parts itself. -/
inductive Part (S C : Type)
  | term (c : C) (v : Variable S)
  | weighted (ts : List (Variable S × C))
  | sum (ps : List (Part S C))

namespace Part

mutual

def feed (g : Gathering S C) : Part S C → Except BuildError (Gathering S C)
  | term c v => .ok (g.addTerm c v)
  | weighted ts => g.addTerms (ts.map (·.1)) (ts.map (·.2))
  | sum ps => (feedAll {} ps).map fun inner => g.addSum inner.total

def feedAll (g : Gathering S C) : List (Part S C) → Except BuildError (Gathering S C)
  | [] => .ok g
  | p :: ps => (feed g p).bind (feedAll · ps)

end

mutual

def terms : Part S C → List (Variable S × C)
  | term c v => [(v, c)]
  | weighted ts => ts
  | sum ps => allTerms ps

def allTerms : List (Part S C) → List (Variable S × C)
  | [] => []
  | p :: ps => terms p ++ allTerms ps

end

mutual

theorem feed_holds [CommutativeScalar C] (p : Part S C) {g : Gathering S C}
    {ts : List (Variable S × C)} (h : g.Holds ts) :
    ∃ g', feed g p = .ok g' ∧ g'.Holds (ts ++ p.terms) := by
  cases p with
  | term c v => exact ⟨_, rfl, h.append [(v, c)]⟩
  | weighted us =>
      refine ⟨{ g with terms := g.terms ++ us }, ?_, h.append us⟩
      rw [feed, Gathering.addTerms, if_pos (by simp), ← List.unzip_fst, ← List.unzip_snd,
        List.zip_unzip]
  | sum ps =>
      obtain ⟨inner, hinner, hholds⟩ := feedAll_holds ps Gathering.Holds.empty
      refine ⟨g.addSum inner.total, ?_, h.addSum hholds.total⟩
      rw [feed, hinner]
      rfl

theorem feedAll_holds [CommutativeScalar C] (ps : List (Part S C)) {g : Gathering S C}
    {ts : List (Variable S × C)} (h : g.Holds ts) :
    ∃ g', feedAll g ps = .ok g' ∧ g'.Holds (ts ++ allTerms ps) := by
  cases ps with
  | nil =>
      rw [allTerms, List.append_nil]
      exact ⟨g, rfl, h⟩
  | cons p ps =>
      obtain ⟨g', hp, hg'⟩ := feed_holds p h
      obtain ⟨g'', hps, hg''⟩ := feedAll_holds ps hg'
      refine ⟨g'', ?_, ?_⟩
      · rw [feedAll, hp]
        exact hps
      · rw [allTerms, ← List.append_assoc]
        exact hg''

end

/-- The parts are gathered into an expression, to which other parts with the same terms come, too,
in whatever order and grouping. It holds every variable of the terms, also one whose coefficients
cancel, and no other. -/
structure ComesTo (ps : List (Part S C)) (s : LinearSum S C) : Prop where
  gathered : ∃ g, feedAll {} ps = .ok g ∧ g.total = s
  totals : Totals (allTerms ps) s
  present : ∀ v : Variable S, (∃ w ∈ s.variables, v.same w = true) ↔ ∃ t ∈ allTerms ps, v.same t.1 = true
  regrouped : ∀ qs, (allTerms qs).Perm (allTerms ps) →
    ∃ g, feedAll {} qs = .ok g ∧ g.total.same s = true
  collected : ∀ ts, ts.Perm (allTerms ps) → (LinearSum.ofTerms ts).same s = true

theorem exists_comesTo [CommutativeScalar C] (ps : List (Part S C)) : ∃ s, ComesTo ps s := by
  have hall (qs : List (Part S C)) :
      ∃ g, feedAll {} qs = .ok g ∧ Totals (allTerms qs) g.total := by
    obtain ⟨g, hg, hholds⟩ := feedAll_holds qs Gathering.Holds.empty
    exact ⟨g, hg, hholds.total⟩
  obtain ⟨g, hg, htotals⟩ := hall ps
  refine ⟨g.total, ⟨g, hg, rfl⟩, htotals, htotals.mem_variables, fun qs hperm => ?_,
    fun ts hperm => ?_⟩
  · obtain ⟨g', hg', htotals'⟩ := hall qs
    exact ⟨g', hg', (htotals'.perm hperm).same htotals⟩
  · exact ((Totals.ofTerms ts).perm hperm).same htotals

/-- Expressions over integers that wrap, and over bits that add modulo two, are settled by the terms
that go into them. A constraint and an objective take over the expression as it is. -/
theorem total_unique (S : Type) [Scalar S] :
    (∀ ps : List (Part S Int64), ∃ s, ComesTo ps s) ∧ ∀ ps : List (Part S Bit), ∃ s, ComesTo ps s :=
  ⟨exists_comesTo, exists_comesTo⟩

end Part

end LinearSum

end LinOpt
