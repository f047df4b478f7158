import LinOpt.Mps.Writer
import LinOpt.Proofs.Checked
import LinOpt.Proofs.Except
import LinOpt.Search.OfProgram
import Mathlib.Data.List.Nodup

namespace LinOpt

structure Program.InRange (p : Program) : Prop where
  terms : ∀ r ∈ p.rows, ∀ t ∈ r.terms, t.1 < p.columns.length
  objective : ∀ t ∈ p.objective, t.1 < p.columns.length

variable {p : Program}

def Program.costsIn (p : Program) : Option (List Double) :=
  p.objective.foldlM (fun sums t => modifyAt (· + t.2) t.1 sums)
    (List.replicate p.columns.length .zero)

theorem Program.costsIn_eq (hp : p.InRange) : p.costsIn = some p.costs := by
  rw [costsIn, foldlM_modifyAt Prod.fst (fun t x => x + t.2) (by simpa using hp.objective)]
  refine congrArg some (List.ext_getElem (by simp [costs]) fun j hj hj' => ?_)
  simp [costs, cost]

namespace Mps

/-- One list of entries for each column. -/
abbrev Table := List (List (String × Double))

def pushCosts (costs : List Double) (table : Table) : Option Table :=
  costs.zipIdx.foldlM (fun table c =>
    if !(c.1 == .zero) then modifyAt (· ++ [(objectiveName, c.1)]) c.2 table else some table) table

def pushTerms (rows : List Row) (table : Table) : Option Table :=
  rows.foldlM (fun table r =>
    r.terms.foldlM (fun table t => modifyAt (· ++ [(r.name, t.2)]) t.1 table) table) table

/-- The entries of all columns as they are collected: the costs that are not zero, and then the terms
of one row after another. -/
def columnTableIn (p : Program) : Option Table := do
  let costs ← p.costsIn
  let table ← pushCosts costs (List.replicate p.columns.length [])
  pushTerms p.rows table

theorem foldl_snoc {α β : Type} (f : α → β) (xs : List α) (ys : List β) :
    xs.foldl (fun ys x => ys ++ [f x]) ys = ys ++ xs.map f := by
  rw [List.foldl_append_eq_append, ← List.flatMap_def, List.map_eq_flatMap]

theorem foldlM_push {α β : Type} (position : α → Nat) (entry : α → β) {xs : List α}
    {table : List (List β)} (h : ∀ x ∈ xs, position x < table.length) :
    xs.foldlM (fun table x => modifyAt (· ++ [entry x]) (position x) table) table = some
      (table.mapIdx fun j es => es ++ (xs.filter (position · == j)).map entry) := by
  rw [foldlM_modifyAt position (fun x es => es ++ [entry x]) h]
  refine congrArg (fun f => some (table.mapIdx f)) ?_
  funext j es
  exact foldl_snoc entry _ es

theorem pushTerms_eq {rows : List Row} {table : Table}
    (h : ∀ r ∈ rows, ∀ t ∈ r.terms, t.1 < table.length) :
    pushTerms rows table = some
      (table.mapIdx fun j es => es ++
        rows.flatMap fun r => (r.terms.filter (·.1 == j)).map fun t => (r.name, t.2)) := by
  induction rows generalizing table with
  | nil => exact congrArg some (List.ext_getElem (by simp) (by simp))
  | cons r rows ih =>
      obtain ⟨hr, hrows⟩ := List.forall_mem_cons.mp h
      have hfirst := foldlM_push Prod.fst (fun t => (r.name, t.2)) hr
      show r.terms.foldlM _ table >>= pushTerms rows = _
      rw [hfirst, Option.bind_eq_bind, Option.bind_some, ih (by simpa using hrows),
        List.mapIdx_mapIdx]
      simp [Function.comp_def]

theorem zipIdx_costs (p : Program) :
    p.costs.zipIdx = (List.range p.columns.length).map fun j => (p.cost j, j) := by
  apply List.ext_getElem (by simp [Program.costs])
  intro j hj hj'
  simp [Program.costs]

theorem filter_range {n j : Nat} (hj : j < n) : (List.range n).filter (· == j) = [j] := by
  rw [List.filter_beq, List.count_eq_one_of_mem List.nodup_range (List.mem_range.mpr hj)]
  rfl

theorem filter_costs (p : Program) {j : Nat} (hj : j < p.columns.length) :
    ((p.costs.zipIdx.filter fun c => !(c.1 == .zero)).filter (·.2 == j)).map
      (fun c => (objectiveName, c.1)) = if p.cost j == .zero then [] else [(objectiveName, p.cost j)] := by
  have hcongr : ∀ i ∈ List.range p.columns.length,
      (i == j && !(p.cost i == .zero)) = (i == j && !(p.cost j == .zero)) := by
    intro i _
    by_cases hij : i = j
    · rw [hij]
    · rw [beq_eq_false_iff_ne.mpr hij]
      rfl
  rw [zipIdx_costs, List.filter_filter, List.filter_map, List.map_map]
  show ((List.range p.columns.length).filter fun i => i == j && !(p.cost i == .zero)).map _ = _
  rw [List.filter_congr hcongr]
  by_cases hzero : p.cost j == .zero
  · simp [hzero]
  · simp [hzero, filter_range hj]

theorem pushCosts_eq (p : Program) {table : Table} (h : p.columns.length = table.length) :
    pushCosts p.costs table = some (table.mapIdx fun j es => es ++
      if p.cost j == .zero then [] else [(objectiveName, p.cost j)]) := by
  have hcosts : ∀ c ∈ p.costs.zipIdx.filter (fun c => !(c.1 == .zero)), c.2 < table.length := by
    intro c hc
    have hmem := (List.mem_filter.mp hc).1
    rw [zipIdx_costs] at hmem
    obtain ⟨j, hj, rfl⟩ := List.mem_map.mp hmem
    exact h ▸ List.mem_range.mp hj
  have hpush := foldlM_push Prod.snd (fun c => (objectiveName, c.1)) hcosts
  rw [List.foldlM_filter] at hpush
  refine hpush.trans (congrArg some (List.ext_getElem (by simp) fun j hj hj' => ?_))
  have hlt : j < p.columns.length := by simpa [h] using hj
  simp [← filter_costs p hlt]

theorem columnTableIn_eq (hp : p.InRange) :
    columnTableIn p = some ((List.range p.columns.length).map (columnEntries p)) := by
  rw [columnTableIn, Program.costsIn_eq hp, Option.bind_eq_bind, Option.bind_some,
    pushCosts_eq p (by simp), Option.bind_eq_bind, Option.bind_some,
    pushTerms_eq (by simpa using hp.terms), List.mapIdx_mapIdx]
  exact congrArg some (List.ext_getElem (by simp) fun j hj hj' => by simp [columnEntries])

end Mps

namespace Search

def addTermIn (fraction : Double → Refusal) (overflow : Refusal) (sums : List Int)
    (t : Nat × Double) : Checked Refusal (List Int) :=
  match integral? t.2 with
  | none => throw (fraction t.2)
  | some c => do
    let sum := (← access sums[t.1]?) + c
    if fits sum then access (modifyAt (fun _ => sum) t.1 sums) else throw overflow

def gatherIn (fraction : Double → Refusal) (overflow : Refusal) (n : Nat)
    (terms : List (Nat × Double)) : Checked Refusal (List Int) :=
  terms.foldlM (addTermIn fraction overflow) (List.replicate n 0)

def rowOfIn (domains : List Domain) (r : Row) : Checked Refusal LinearRow := do
  let cs ← gatherIn .fractionalCoefficient (.coefficientOverflow r.name) domains.length r.terms
  if largestInt < sizeBound cs domains then throw (.activityOverflow r.name)
  return ⟨cs, ← bound r.lower, ← bound r.upper⟩

def Problem.ofProgramIn (p : Program) : Checked Refusal Problem := do
  let domains ← (p.columns.mapM domainOf : Except Refusal (List Domain))
  let rows ← p.rows.mapM (rowOfIn domains)
  let objective ← gatherIn .fractionalCost .costOverflow domains.length p.objective
  match integral? p.offset with
  | none => throw .fractionalOffset
  | some offset =>
    if largestInt < offset.natAbs + sizeBound objective domains then throw .objectiveOverflow
    return { domains, rows, objective, offset, maximize := p.maximize }

theorem addTermIn_agree (fraction : Double → Refusal) (overflow : Refusal) {sums : List Int}
    {t : Nat × Double} (ht : t.1 < sums.length) :
    Agree (fun a b => a = b ∧ a.length = sums.length) (addTermIn fraction overflow sums t)
      (addTerm fraction overflow sums t) := by
  rw [addTermIn, addTerm]
  cases integral? t.2 with
  | none => exact .error _
  | some c =>
      show Agree _ (access sums[t.1]? >>= _) _
      rw [List.getElem?_eq_getElem ht, access_some, pure_bind, List.getD_eq_getElem?_getD,
        List.getElem?_eq_getElem ht, Option.getD_some]
      dsimp only
      split
      case isTrue =>
        rw [modifyAt_eq ht]
        exact .ok ⟨rfl, List.length_set⟩
      case isFalse => exact .error _

theorem gatherIn_agree {fraction : Double → Refusal} {overflow : Refusal} {n : Nat}
    {terms : List (Nat × Double)} (h : ∀ t ∈ terms, t.1 < n) :
    Agree Eq (gatherIn fraction overflow n terms) (gather fraction overflow n terms) := by
  have hrun : Agree (fun a b => a = b ∧ a.length = n)
      ((terms.map id).foldlM (addTermIn fraction overflow) (List.replicate n 0))
      (gather fraction overflow n terms) := by
    refine Agree.foldlM id (fun t ht a b hab => ?_) ⟨rfl, List.length_replicate⟩
    obtain ⟨rfl, hlength⟩ := hab
    exact hlength ▸ addTermIn_agree fraction overflow (hlength.symm ▸ h t ht)
  rw [List.map_id] at hrun
  exact hrun.imp fun _ _ _ h => h.1

theorem rowOfIn_agree {domains : List Domain} {r : Row} (h : ∀ t ∈ r.terms, t.1 < domains.length) :
    Agree Eq (rowOfIn domains r) (rowOf domains r) := by
  refine (gatherIn_agree h).bind fun cs cs' heq => ?_
  subst heq
  split
  case isTrue => exact .error _
  case isFalse =>
    refine (Agree.lift (bound r.lower)).bind fun l l' heq => ?_
    subst heq
    refine (Agree.lift (bound r.upper)).bind fun u u' heq => ?_
    subst heq
    exact .ok rfl

theorem length_domains {domains : List Domain} (h : p.columns.mapM domainOf = .ok domains) :
    domains.length = p.columns.length := (Except.mapM_eq_ok.mp h).length_eq.symm

theorem ofProgramIn_eq (hp : p.InRange) : Problem.ofProgramIn p = some (Problem.ofProgram p) := by
  apply Agree.eq_some
  have hdomains := (Agree.lift (p.columns.mapM domainOf)).imp fun a b hb hab =>
    show a = b ∧ a.length = p.columns.length from ⟨hab, hab ▸ length_domains hb⟩
  refine hdomains.bind fun domains domains' hab => ?_
  obtain ⟨rfl, hlength⟩ := hab
  have hrows : ∀ r ∈ p.rows, ∀ t ∈ r.terms, t.1 < domains.length := hlength.symm ▸ hp.terms
  refine (Agree.mapM fun r hr => rowOfIn_agree (hrows r hr)).bind fun rows rows' heq => ?_
  subst heq
  refine (gatherIn_agree (hlength.symm ▸ hp.objective)).bind fun cs cs' heq => ?_
  subst heq
  cases integral? p.offset with
  | none => exact .error _
  | some offset =>
      dsimp only
      split
      case isTrue => exact .error _
      case isFalse => exact .ok rfl

end Search

end LinOpt
