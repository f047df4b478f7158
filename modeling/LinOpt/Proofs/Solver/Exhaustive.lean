import LinOpt.Proofs.Model.Assignment
import LinOpt.Proofs.Model.Built
import LinOpt.Proofs.Program.OfModel
import LinOpt.Proofs.Search.Completeness
import LinOpt.Proofs.Search.Faithful
import LinOpt.Proofs.Solver.Steps

namespace LinOpt

open Search

theorem ofDouble_eq (x : Double) : (Scalar.ofDouble x : Int64) = x.toInt64 := rfl

theorem toInt64_of_holds {x : Double} {n : Int} (h : x.Holds n) (hl : -2 ^ 63 ≤ n) (hu : n < 2 ^ 63) :
    x.toInt64 = .ofInt n := by
  rw [Double.toInt64, Double.isNaN_of_isFinite h.1, if_neg Bool.false_ne_true,
    Double.roundAway_of_holds h]
  congr 1
  rw [Int64.toInt_minValue, Int64.toInt_maxValue]
  omega

theorem Double.Holds.within128 {x : Double} {n : Int64} (h : x.Holds n.toInt) : Within128 x := by
  have hl : -2 ^ 63 ≤ n.toInt := Int64.le_toInt n
  have hu : n.toInt < 2 ^ 63 := Int64.toInt_lt n
  refine ⟨h.1, ?_, ?_⟩
  · rw [h.2]
    exact_mod_cast (by omega : -2 ^ 127 ≤ n.toInt)
  · rw [h.2]
    exact_mod_cast (by omega : n.toInt < 2 ^ 127)

theorem Double.Holds.extended {x : Double} {n : Int} (h : x.Holds n) : x.extended = extend n := by
  rw [extended_of_isFinite h.1, h.2]

/-- The integers of an interval. -/
def Interval.domain (i : Interval Int64) : Domain := ⟨i.lower.toInt, i.upper.toInt⟩

theorem domain_of_accepted {v : Variable Int64} {d : Domain}
    (h : AcceptedColumn (Program.columnOf v) d) (hv : v.interval.OpenOrHeld) :
    v.interval.domain = d ∧ ∀ n : Int, d.Contains n → (Double.ofInt n).Holds n := by
  obtain ⟨hlower, hl⟩ := Double.ceil?_eq_some.mp h.lower
  obtain ⟨hupper, hu⟩ := Double.floor?_eq_some.mp h.upper
  rcases hv with hmin | hmax | hheld
  · rw [Program.columnOf, hmin, toBound_minValue, Double.isFinite_negInfinity] at hlower
    cases hlower
  · rw [Program.columnOf, hmax, toBound_maxValue, Double.isFinite_infinity] at hupper
    cases hupper
  · rw [Program.columnOf, hheld.lower.2, Int.ceil_intCast] at hl
    rw [Program.columnOf, hheld.upper.2, Int.floor_intCast] at hu
    have hwidth := h.width
    rw [← hl, ← hu] at hwidth
    refine ⟨by rw [Interval.domain, hl, hu], fun n hn => hheld.between hwidth n ?_ ?_⟩
    · exact hl ▸ hn.1
    · exact hu ▸ hn.2

theorem domains_eq {vs : List (Variable Int64)} {ds : List Domain}
    (h : List.Forall₂ AcceptedColumn (vs.map Program.columnOf) ds)
    (hvs : ∀ v ∈ vs, v.interval.OpenOrHeld) :
    ds = vs.map (·.interval.domain) ∧
      ∀ d ∈ ds, ∀ n : Int, d.Contains n → (Double.ofInt n).Holds n := by
  rw [List.forall₂_map_left_iff] at h
  have hboth := ((List.forall₂_and_left _ _).mpr ⟨hvs, h⟩).imp fun v d ⟨hv, hd⟩ => domain_of_accepted hd hv
  refine ⟨?_, forall_of_forall₂ hboth fun v d hd => hd.2⟩
  rw [eq_comm, ← List.forall₂_eq_eq_eq, List.forall₂_map_left_iff]
  exact hboth.imp fun _ _ => And.left

theorem exactSum_placed {vs : List (Variable Int64)} {es : List (Variable Int64 × Int64)}
    {ts : List (Nat × Double)} (h : List.Forall₂ (Program.Placed vs) es ts)
    (hes : ∀ e ∈ es, (Scalar.toDouble e.2 : Double).Holds e.2.toInt) (x : Assignment) :
    exactSum ts (vs.map fun v => (x v).toInt) =
      ((es.map fun e => e.2.toInt * (x e.1).toInt).sum : Int) := by
  induction h with
  | nil => rfl
  | @cons e t es ts het _ ih =>
      obtain ⟨he, hes⟩ := List.forall_mem_cons.mp hes
      obtain ⟨hplace, ht⟩ := het
      have hvalue : (vs.map fun v => (x v).toInt).getD t.1 0 = (x e.1).toInt := by
        rw [List.getD_eq_getElem?_getD, List.getElem?_map, hplace]
        rfl
      rw [exactSum, List.map_cons, List.sum_cons, ← exactSum, ih hes, hvalue, ht, he.2, List.map_cons,
        List.sum_cons, Int.cast_add, Int.cast_mul]

theorem lower_satisfied {n : Int64} (h : n = Int64.minValue ∨ HeldAsBound n) (s : Int) :
    (Scalar.toBound n : Double).extended ≤ Double.extend s ↔ (n ≠ Int64.minValue → n.toInt ≤ s) := by
  by_cases hn : n = Int64.minValue
  · rw [hn, toBound_minValue]
    exact iff_of_true bot_le fun hne => absurd rfl hne
  · rw [(h.resolve_left hn).extended, Double.extend_le_extend, Int.cast_le]
    exact ⟨fun hle _ => hle, fun hle => hle hn⟩

theorem upper_satisfied {n : Int64} (h : n = Int64.maxValue ∨ HeldAsBound n) (s : Int) :
    Double.extend s ≤ (Scalar.toBound n : Double).extended ↔ (n ≠ Int64.maxValue → s ≤ n.toInt) := by
  by_cases hn : n = Int64.maxValue
  · rw [hn, toBound_maxValue]
    exact iff_of_true le_top fun hne => absurd rfl hne
  · rw [(h.resolve_left hn).extended, Double.extend_le_extend, Int.cast_le]
    exact ⟨fun hle _ => hle, fun hle => hle hn⟩

theorem uncut_of_held {vs : List (Variable Int64)} {c : Constraint Int64 Int64} {r : Row}
    (hr : Program.FlattenedRow vs c r)
    (hplaced : List.Forall₂ (Program.Placed vs) c.sum.terms.entries r.terms) (hc : c.Held) :
    UncutRow r := by
  refine ⟨?_, ?_, ?_⟩
  · refine forall_of_forall₂ ((List.forall₂_and_left _ _).mpr ⟨hc.coefficients, hplaced⟩) ?_
    rintro e t ⟨he, -, ht⟩
    rw [ht]
    exact he.within128
  · rw [hr.lower]
    exact hc.lower.imp (fun h => by rw [h, toBound_minValue]) fun h => h.within128
  · rw [hr.upper]
    exact hc.upper.imp (fun h => by rw [h, toBound_maxValue]) fun h => h.within128

theorem respected_iff {vs : List (Variable Int64)} {c : Constraint Int64 Int64} {r : Row}
    (hr : Program.FlattenedRow vs c r)
    (hplaced : List.Forall₂ (Program.Placed vs) c.sum.terms.entries r.terms) (hc : c.Held)
    (x : Assignment) : Respected r (vs.map fun v => (x v).toInt) ↔ c.Satisfied x := by
  rw [Respected, exactSum_placed hplaced hc.coefficients, hr.lower, hr.upper,
    lower_satisfied hc.lower, upper_satisfied hc.upper]
  exact ⟨fun h => ⟨h.1, h.2⟩, fun h => ⟨h.lower, h.upper⟩⟩

section Points

variable {m : Model Int64 Int64} {p : Program} {q : Problem}

theorem feasible_iff_satisfied (hnames : (m.variables.map (·.name)).Nodup)
    (hclosed : Program.Closed m) (hheld : m.Held) (hp : Program.Flattened m p) (hq : Accepted p q)
    (x : Assignment) : q.Feasible (m.variables.map fun v => (x v).toInt) ↔ m.Satisfied x := by
  have hdomains := hq.domains
  rw [hp.columns] at hdomains
  obtain ⟨hds, -⟩ := domains_eq hdomains hheld.intervals
  have hlen : (m.variables.map fun v => (x v).toInt).length = p.columns.length := by
    rw [hp.columns, List.length_map, List.length_map]
  have hpoint : List.Forall₂ Domain.Contains q.domains (m.variables.map fun v => (x v).toInt) ↔
      ∀ v ∈ m.variables, v.interval.lower ≤ x v ∧ x v ≤ v.interval.upper := by
    rw [hds, List.forall₂_map_left_iff, List.forall₂_map_right_iff, List.forall₂_same]
    simp only [Domain.Contains, Interval.domain, Int64.le_iff_toInt_le]
  have hplaced {c : Constraint Int64 Int64} {r : Row} (hc : c ∈ m.constraints)
      (hr : Program.FlattenedRow m.variables c r) :=
    Program.placed_of_termsOf hnames (hclosed.constraints c hc) hr.terms
  have hconstraints := (List.forall₂_and_left (p := (· ∈ m.constraints)) _ _).mpr
    ⟨fun c hc => hc, hp.rows⟩
  have hrespected : (∀ c ∈ m.constraints, c.Satisfied x) ↔
      ∀ r ∈ p.rows, Respected r (m.variables.map fun v => (x v).toInt) :=
    forall_iff_of_forall₂ (hconstraints.imp fun c r h =>
      (respected_iff h.2 (hplaced h.1 h.2) (hheld.constraints c h.1) x).symm)
  have huncut : ∀ r ∈ p.rows, UncutRow r :=
    forall_of_forall₂ hconstraints fun c r h =>
      uncut_of_held h.2 (hplaced h.1 h.2) (hheld.constraints c h.1)
  have hrows : (∀ r ∈ p.rows, Respected r (m.variables.map fun v => (x v).toInt)) ↔
      ∀ row ∈ q.rows, row.holds (m.variables.map fun v => (x v).toInt) = true :=
    forall_iff_of_forall₂ ((hq.rows_iff huncut).imp fun r row h => (h _ hlen).symm)
  exact ⟨fun h => ⟨hpoint.mp h.inDomains, hrespected.mpr (hrows.mpr h.rowsHold)⟩,
    fun h => ⟨hpoint.mpr h.intervals, hrows.mp (hrespected.mp h.constraints)⟩⟩

theorem exists_satisfied (hnames : (m.variables.map (·.name)).Nodup)
    (hclosed : Program.Closed m) (hheld : m.Held) (hp : Program.Flattened m p) (hq : Accepted p q)
    {ns : List Int} (hns : q.Feasible ns) :
    ∃ x : Assignment, m.Satisfied x ∧ ∀ v ∈ m.variables,
      (OrderedMap.ofList (m.variables.zip ((ns.map Double.ofInt).map Scalar.ofDouble))).get? v =
        some (x v) := by
  have hdomains := hq.domains
  rw [hp.columns] at hdomains
  obtain ⟨hds, hholds⟩ := domains_eq hdomains hheld.intervals
  have hin : ∀ n ∈ ns, (Double.ofInt n).Holds n ∧ -2 ^ 63 ≤ n ∧ n < 2 ^ 63 := by
    intro n hn
    obtain ⟨d, hd, hdn⟩ := hns.exists_domain n hn
    exact ⟨hholds d hd n hdn, hq.within64 hd hdn⟩
  have hvalues : (ns.map Double.ofInt).map Scalar.ofDouble = ns.map Int64.ofInt := by
    rw [List.map_map]
    refine List.map_congr_left fun n hn => ?_
    obtain ⟨hholds, hl, hu⟩ := hin n hn
    rw [Function.comp_apply, ofDouble_eq, toInt64_of_holds hholds hl hu]
  have hlen : (ns.map Int64.ofInt).length = m.variables.length := by
    rw [List.length_map, ← hns.inDomains.length_eq, hds, List.length_map]
  obtain ⟨x, hx, hget⟩ := Values.exists_assignment hnames hlen
  have hpoint : m.variables.map (fun v => (x v).toInt) = ns := by
    have hback : (ns.map Int64.ofInt).map Int64.toInt = ns := by
      rw [List.map_map]
      refine (List.map_congr_left fun n hn => ?_).trans (List.map_id ns)
      exact Int64.toInt_ofInt_of_le (hin n hn).2.1 (hin n hn).2.2
    rw [← hback, ← hx, List.map_map]
    rfl
  rw [← hpoint] at hns
  rw [hvalues]
  exact ⟨x, (feasible_iff_satisfied hnames hclosed hheld hp hq x).mp hns, hget⟩

end Points

namespace ExhaustiveSolver

variable {m : Model Int64 Int64} {ps : Parameters}

theorem result_ofNative (st : Search.Status) (report : Option EngineReport)
    (vs : List (Variable Int64)) :
    (Solution.ofNative (nativeStatus st) report vs :
      Traced SolveError (Solution Int64 Int64)).result = Solution.ofAnswer ⟨st.common, report⟩ vs :=
  Solution.result_ofNative rfl _ _

theorem result_solveReporting {p : Program} (hkind : ∀ v ∈ m.variables, v.kind ≠ .continuous)
    (hp : Program.ofModel m = .ok p) (hlimit : ps.timeLimitMs = none) (hpath : ps.exportPath = none)
    (h : Host) (listening optimize : Bool) :
    (solveReporting h m ps listening optimize).result =
      match Problem.ofProgram p with
      | .error _ => .ok (.unsolved .modelInvalid, [])
      | .ok q =>
        let o := Task.run ⟨q, optimize, fun _ => false⟩
        (Solution.ofAnswer ⟨o.status.common, reportOf o⟩ m.variables).map fun s =>
          (s, if listening then o.reported.map (valuesOf m.variables) else []) := by
  have hnone : m.variables.find? (·.kind == .continuous) = none :=
    List.find?_eq_none.mpr fun v hv hc => hkind v hv (beq_iff_eq.mp hc)
  have hprogram : m.program.result = .ok p := by rw [Model.result_program, hp]; rfl
  have hclock : h.clock ps.timeLimitMs = fun _ => false := by rw [hlimit]; rfl
  simp only [solveReporting, hnone, Traced.result_bind, hprogram, hpath, Mps.result_exportTo_none,
    Traced.result_tell, hclock, Except.bind]
  cases Problem.ofProgram p with
  | error e => rfl
  | ok q =>
      simp only [Traced.result_bind, Traced.result_pure, result_ofNative]
      rfl

/-- Exhaustive search is exact on a model of which reals hold all numbers: a solution satisfies every
interval and every constraint in exact arithmetic, and an infeasible model is satisfied by nothing. -/
theorem solveReporting_exact (hbuilt : m.Built) (hkind : ∀ v ∈ m.variables, v.kind ≠ .continuous)
    (hclosed : Program.Closed m) (hheld : m.Held) (hlimit : ps.timeLimitMs = none)
    (hpath : ps.exportPath = none) (h : Host) (listening optimize : Bool) :
    ∃ solution reports,
      (solveReporting h m ps listening optimize).result = .ok (solution, reports) ∧
      (solution.isFeasible = true →
        ∃ x, m.Satisfied x ∧ ∀ v ∈ m.variables, solution.values.get? v = some (x v)) ∧
      (solution.status = .infeasible → ∀ x, ¬ m.Satisfied x) := by
  obtain ⟨p, hp⟩ := Program.exists_ofModel hbuilt.names_nodup hclosed
  have hflat := Program.ofModel_eq_ok hp
  rw [result_solveReporting hkind hp hlimit hpath]
  cases hq : Problem.ofProgram p with
  | error e => exact ⟨_, _, rfl, nofun, nofun⟩
  | ok q =>
      have hacc := ofProgram_accepted hq
      obtain ⟨hstatus, hsolution, hnone⟩ | ⟨ns, v, hstatus, hsolution, hobjective, hns⟩ :=
        run_untimed_verdict q optimize
      · simp only [hstatus, reportOf, hsolution]
        refine ⟨_, _, rfl, nofun, fun _ x hx => ?_⟩
        exact hnone _ ((feasible_iff_satisfied hbuilt.names_nodup hclosed hheld hflat hacc x).mpr hx)
      · simp only [hstatus, reportOf, hsolution, hobjective]
        refine ⟨_, _, rfl, fun _ => ?_, nofun⟩
        exact exists_satisfied hbuilt.names_nodup hclosed hheld hflat hacc hns

def stockVariable : Variable Int64 := ⟨"stock", ⟨-2, 3⟩, .integer⟩

def orderVariable : Variable Int64 := ⟨"order", .binary, .binary⟩

def stockModel : Model Int64 Int64 where
  «variables» := [stockVariable, orderVariable]
  constraints :=
    [⟨(LinearSum.zero.addTerm stockVariable 3).addTerm orderVariable (-5), ⟨1, Int64.maxValue⟩, none⟩]
  objective := ⟨LinearSum.zero.addTerm stockVariable 1, false, none⟩

theorem stockModel_built : stockModel.Built := by
  have hstock : (⟨-2, 3⟩ : Interval Int64).Built :=
    .of_le (by decide) (Double.isNaN_ofInt _) (Double.isNaN_ofInt _)
  have hside : (⟨1, Int64.maxValue⟩ : Interval Int64).Built :=
    .of_le (by decide) (Double.isNaN_ofInt _) (Double.isNaN_ofInt _)
  have hdraft : Draft.Built (S := Int64) (C := Int64) ⟨[stockVariable, orderVariable], []⟩ :=
    (Draft.Built.empty.append hstock (v := stockVariable) (by decide)).append .binary
      (v := orderVariable) (by decide)
  exact .complete (.addConstraints hdraft (List.forall_mem_singleton.mpr
    ⟨.addTerm (.addTerm .zero _ _) _ _, hside⟩)) (.addTerm .zero _ _)

theorem stockModel_held : stockModel.Held := by
  have hstock : (⟨-2, 3⟩ : Interval Int64).Held :=
    Interval.held_of_lt (by decide) (by decide)
  have horder : (Interval.binary : Interval Int64).Held :=
    Interval.held_of_lt (by decide) (by decide)
  refine ⟨?_, List.forall_mem_singleton.mpr ⟨?_, .inr (heldAsBound_of_lt (by decide)), .inl rfl⟩⟩
  · exact List.forall_mem_cons.mpr ⟨.inr (.inr hstock), List.forall_mem_singleton.mpr (.inr (.inr horder))⟩
  · intro e he
    have hsmall : e.2.toInt.natAbs < 2 ^ 53 := by
      revert e
      decide +kernel
    exact Double.ofInt_holds_of_lt hsmall

def bareHost : Host := ⟨fun _ => none, fun _ => false, fun _ _ => false⟩

theorem solveReporting_exact_stock :
    stockModel.Built ∧ (∀ v ∈ stockModel.variables, v.kind ≠ .continuous) ∧
      Program.Closed stockModel ∧ stockModel.Held ∧
      ∃ solution reports,
        (solveReporting bareHost stockModel {} true true).result = .ok (solution, reports) ∧
        (solution.isFeasible = true →
          ∃ x, stockModel.Satisfied x ∧
            ∀ v ∈ stockModel.variables, solution.values.get? v = some (x v)) ∧
        (solution.status = .infeasible → ∀ x, ¬ stockModel.Satisfied x) := by
  have hkind : ∀ v ∈ stockModel.variables, v.kind ≠ .continuous := by decide
  have hstock : stockVariable ∈ stockModel.variables := List.mem_cons_self
  have horder : orderVariable ∈ stockModel.variables := List.mem_cons_of_mem _ List.mem_cons_self
  have hclosed : Program.Closed stockModel :=
    ⟨List.forall_mem_singleton.mpr (List.forall_mem_cons.mpr
      ⟨horder, List.forall_mem_singleton.mpr hstock⟩), List.forall_mem_singleton.mpr hstock⟩
  exact ⟨stockModel_built, hkind, hclosed, stockModel_held,
    solveReporting_exact stockModel_built hkind hclosed stockModel_held rfl rfl bareHost true true⟩

def halfwayVariable : Variable Int64 := ⟨"halfway", .point 9007199254740993, .integer⟩

def halfwayModel : Model Int64 Int64 := ⟨[halfwayVariable], [], ⟨.zero, false, none⟩⟩

/-- Beyond `2 ^ 53` the value of a solution can be rounded out of its interval. -/
theorem solveReporting_halfway : halfwayModel.Built ∧
    (∀ v ∈ halfwayModel.variables, v.kind ≠ .continuous) ∧ Program.Closed halfwayModel ∧
      ∃ solution, (solveReporting bareHost halfwayModel {} false true).result = .ok (solution, []) ∧
        solution.isFeasible = true ∧ solution.values.get? halfwayVariable = some 9007199254740992 ∧
        ∀ x, (∀ v ∈ halfwayModel.variables, solution.values.get? v = some (x v)) →
          ¬ halfwayModel.Satisfied x := by
  have hbuilt : halfwayModel.Built :=
    .complete (Draft.Built.empty.append (.point _) (v := halfwayVariable) (by decide)) .zero
  have hkind : ∀ v ∈ halfwayModel.variables, v.kind ≠ .continuous := by decide
  have hprogram : Program.ofModel halfwayModel =
      .ok ⟨"model", [Program.columnOf halfwayVariable], [], [], .zero, false⟩ := rfl
  have hproblem : Problem.ofProgram ⟨"model", [Program.columnOf halfwayVariable], [], [], .zero, false⟩ =
      .ok ⟨[⟨2 ^ 53, 2 ^ 53⟩], [], [0], 0, false⟩ := by decide +kernel
  have hrun : Task.run ⟨⟨[⟨2 ^ 53, 2 ^ 53⟩], [], [0], 0, false⟩, true, fun _ => false⟩ =
      ⟨.optimal, some [2 ^ 53], some 0, some 0, [[2 ^ 53]]⟩ := by decide +kernel
  have hvalue : (OrderedMap.ofList (halfwayModel.variables.zip
      (([2 ^ 53].map Double.ofInt).map Scalar.ofDouble))).get? halfwayVariable =
        some (9007199254740992 : Int64) := by decide +kernel
  refine ⟨hbuilt, hkind, ⟨List.forall_mem_nil _, List.forall_mem_nil _⟩, ?_⟩
  rw [result_solveReporting hkind hprogram rfl rfl, hproblem]
  simp only [hrun]
  refine ⟨_, rfl, rfl, hvalue, fun x hx hsatisfied => ?_⟩
  have hx : some 9007199254740992 = some (x halfwayVariable) :=
    hvalue.symm.trans (hx halfwayVariable List.mem_cons_self)
  have hlower := (hsatisfied.intervals halfwayVariable List.mem_cons_self).1
  rw [← Option.some.inj hx] at hlower
  revert hlower
  decide

end ExhaustiveSolver

end LinOpt
