import LinOpt.Proofs.Except
import LinOpt.Proofs.Lists
import LinOpt.Proofs.Search.Solutions
import LinOpt.Search.OfProgram

namespace LinOpt.Search

variable {p : Program} {q : Problem}

/-- A column with its domain. -/
structure AcceptedColumn (c : Column) (d : Domain) : Prop where
  lower : c.lower.ceil? = some d.lower
  upper : c.upper.floor? = some d.upper
  lower_fits : fits64 d.lower = true
  upper_fits : fits64 d.upper = true
  width : d.upper - d.lower < maxDomainSize

/-- A row with its dense form. -/
structure AcceptedRow (domains : List Domain) (r : Row) (row : LinearRow) : Prop where
  coefficients : gather .fractionalCoefficient (.coefficientOverflow r.name) domains.length r.terms =
    .ok row.coefficients
  size : (sizeBound row.coefficients domains : Int) ≤ largestInt
  lower : bound r.lower = .ok row.lower
  upper : bound r.upper = .ok row.upper

structure Accepted (p : Program) (q : Problem) : Prop where
  domains : List.Forall₂ AcceptedColumn p.columns q.domains
  rows : List.Forall₂ (AcceptedRow q.domains) p.rows q.rows
  objective : gather .fractionalCost .costOverflow q.domains.length p.objective = .ok q.objective
  offset : integral? p.offset = some q.offset
  size : (q.offset.natAbs + sizeBound q.objective q.domains : Int) ≤ largestInt
  maximize : q.maximize = p.maximize

theorem fits_iff {n : Int} : fits n = true ↔ -2 ^ 127 ≤ n ∧ n < 2 ^ 127 := by
  rw [fits, decide_eq_true_iff, smallestInt, largestInt]
  exact and_congr_right' Int.le_sub_one_iff

theorem fits64_iff {n : Int} : fits64 n = true ↔ -2 ^ 63 ≤ n ∧ n < 2 ^ 63 := decide_eq_true_iff

theorem domain?_of_domainOf {c : Column} {d : Domain} (h : domainOf c = .ok d) :
    domain? c = some d := by
  rw [domainOf] at h
  cases hd : domain? c with
  | none =>
      rw [hd] at h
      cases h
  | some d' =>
      rw [hd] at h
      cases h
      rfl

theorem domainOf_accepted {c : Column} {d : Domain} (h : domainOf c = .ok d) :
    AcceptedColumn c d := by
  have h := domain?_of_domainOf h
  rw [domain?] at h
  split at h
  case h_1 l u hl hu =>
    split at h
    case isTrue hok =>
      cases h
      simp only [Bool.and_eq_true, decide_eq_true_iff] at hok
      exact ⟨hl, hu, hok.1.1, hok.1.2, hok.2⟩
    case isFalse => cases h
  case h_2 => cases h

theorem rowOf_accepted {ds : List Domain} {r : Row} {row : LinearRow}
    (h : rowOf ds r = .ok row) : AcceptedRow ds r row := by
  obtain ⟨cs, hcs, h⟩ := Except.bind_eq_ok.mp h
  by_cases hsize : largestInt < sizeBound cs ds
  · rw [if_pos hsize] at h
    cases h
  · rw [if_neg hsize] at h
    obtain ⟨l, hl, h⟩ := Except.bind_eq_ok.mp h
    obtain ⟨u, hu, h⟩ := Except.bind_eq_ok.mp h
    cases h
    exact ⟨hcs, Int.not_lt.mp hsize, hl, hu⟩

theorem ofProgram_accepted (h : Problem.ofProgram p = .ok q) : Accepted p q := by
  obtain ⟨domains, hdomains, h⟩ := Except.bind_eq_ok.mp h
  obtain ⟨rows, hrows, h⟩ := Except.bind_eq_ok.mp h
  obtain ⟨objective, hobjective, h⟩ := Except.bind_eq_ok.mp h
  cases hoffset : integral? p.offset with
  | none =>
      rw [hoffset] at h
      cases h
  | some offset =>
      rw [hoffset] at h
      by_cases hsize : largestInt < offset.natAbs + sizeBound objective domains
      · simp only [if_pos hsize] at h
        cases h
      · simp only [if_neg hsize] at h
        cases h
        exact ⟨(Except.mapM_eq_ok.mp hdomains).imp fun _ _ => domainOf_accepted,
          (Except.mapM_eq_ok.mp hrows).imp fun _ _ => rowOf_accepted, hobjective, hoffset,
          Int.not_lt.mp hsize, rfl⟩

theorem Problem.Feasible.exists_domain {x : List Int} (h : q.Feasible x) :
    ∀ v ∈ x, ∃ d ∈ q.domains, d.Contains v :=
  forall_of_forall₂ ((List.forall₂_and_left (p := (· ∈ q.domains)) _ _).mpr
    ⟨fun _ hd => hd, h.inDomains⟩) fun d _ hd => ⟨d, hd⟩

theorem Accepted.within64 (h : Accepted p q) {d : Domain} (hd : d ∈ q.domains) {v : Int}
    (hv : d.Contains v) : -2 ^ 63 ≤ v ∧ v < 2 ^ 63 := by
  obtain ⟨hl, hu⟩ := forall_of_forall₂ (P := fun d => fits64 d.lower = true ∧ fits64 d.upper = true)
    h.domains (fun _ _ hc => ⟨hc.lower_fits, hc.upper_fits⟩) d hd
  rw [fits64_iff] at hl hu
  exact ⟨Int.le_trans hl.1 hv.1, Int.lt_of_le_of_lt hv.2 hu.2⟩

theorem Accepted.row_size (h : Accepted p q) {row : LinearRow} (hrow : row ∈ q.rows) :
    (sizeBound row.coefficients q.domains : Int) ≤ largestInt :=
  forall_of_forall₂ h.rows (fun _ _ hr => hr.size) row hrow

end LinOpt.Search
