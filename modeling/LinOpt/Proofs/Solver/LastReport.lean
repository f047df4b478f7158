import LinOpt.Proofs.Double.Whole
import LinOpt.Proofs.Model.LookUp
import LinOpt.Proofs.Search.TimeLimit
import LinOpt.Proofs.Solver.Exhaustive

namespace LinOpt

open Search

theorem toDouble_eq (n : Int64) : (Scalar.toDouble n : Double) = .ofInt n.toInt := rfl

/-- The largest integer of 64 bits is rounded up, and cut back to itself. -/
theorem toInt64_toDouble_iff {n : Int64} (hn : n ≠ Int64.maxValue) :
    (Scalar.toDouble n : Double).toInt64 = n ↔ (Scalar.toDouble n : Double).Holds n.toInt := by
  have hl : -2 ^ 63 ≤ n.toInt := Int64.le_toInt n
  have hu : n.toInt < 2 ^ 63 := Int64.toInt_lt n
  rw [toDouble_eq]
  constructor
  · intro h
    obtain ⟨k, hk, hkl, hku⟩ := Double.exists_ofInt_holds hl (Int.le_of_lt hu)
    rcases Int.lt_or_eq_of_le hku with hlt | rfl
    · have hkn : n.toInt = k := by rw [← h, toInt64_of_holds hk hkl hlt, Int64.toInt_ofInt_of_le hkl hlt]
      rw [← hkn] at hk
      exact hk
    · refine absurd (h.symm.trans ?_) hn
      rw [Double.toInt64, Double.isNaN_ofInt, if_neg Bool.false_ne_true, Double.roundAway_of_holds hk]
      decide
  · intro h
    exact (toInt64_of_holds h hl hu).trans (Int64.ofInt_toInt n)

theorem Search.AcceptedColumn.upper_lt {c : Column} {d : Domain} (h : AcceptedColumn c d) :
    d.upper < 2 ^ 63 - 1 := by
  have hfits := (fits64_iff.mp h.upper_fits).2
  by_contra hge
  obtain ⟨k, hk⟩ := Double.even_of_floor (Double.floor?_eq_some.mp h.upper).2 (by omega)
  omega

theorem Search.Accepted.lt_largest {p : Program} {q : Problem} (h : Accepted p q) {ns : List Int}
    (hns : q.Feasible ns) : ∀ n ∈ ns, -2 ^ 63 ≤ n ∧ n < 2 ^ 63 - 1 := by
  have hupper : ∀ d ∈ q.domains, d.upper < 2 ^ 63 - 1 :=
    forall_of_forall₂ h.domains fun _ _ hd => hd.upper_lt
  intro n hn
  obtain ⟨d, hd, hdn⟩ := hns.exists_domain n hn
  exact ⟨(h.within64 hd hdn).1, Int.lt_of_le_of_lt hdn.2 (hupper d hd)⟩

theorem Solution.report_of_isFeasible {S V : Type} [Scalar S] [Scalar V] {answer : EngineAnswer}
    {vs : List (Variable S)} {s : Solution S V} (h : ofAnswer answer vs = .ok s)
    (hfeasible : s.isFeasible = true) : ∃ report, answer.report = some report ∧
      s.values = OrderedMap.ofList (vs.zip (report.values.map Scalar.ofDouble)) := by
  rw [ofAnswer] at h
  split at h
  case isTrue =>
    cases h
    cases hfeasible
  case isFalse =>
    split at h
    case h_1 hreport =>
      cases h
      exact ⟨_, hreport, rfl⟩
    case h_2 => cases h

namespace ExhaustiveSolver

variable {m : Model Int64 Int64} {ps : Parameters}

theorem solveReporting_eq_ok {h : Host} {listening optimize : Bool} {solution : Solution Int64 Int64}
    {reports : List (Values Int64 Int64)}
    (hr : (solveReporting h m ps listening optimize).result = .ok (solution, reports)) :
    solution = .unsolved .modelInvalid ∨ ∃ p q, Program.ofModel m = .ok p ∧
      Problem.ofProgram p = .ok q ∧
      let o := Task.run ⟨q, optimize, h.clock ps.timeLimitMs⟩
      Solution.ofAnswer ⟨o.status.common, reportOf o⟩ m.variables = .ok solution ∧
        reports = if listening then o.reported.map (valuesOf m.variables) else [] := by
  cases hkind : m.variables.find? (·.kind == .continuous) with
  | some v =>
      simp only [solveReporting, hkind, Traced.result_bind] at hr
      cases hr
  | none =>
      simp only [solveReporting, hkind, Traced.result_bind] at hr
      obtain ⟨p, hp, hr⟩ := Except.bind_eq_ok.mp hr
      obtain ⟨-, -, hr⟩ := Except.bind_eq_ok.mp hr
      rw [Model.result_program, Except.mapError_eq_ok] at hp
      cases hq : Problem.ofProgram p with
      | error e =>
          simp only [hq, Traced.result_bind, Traced.result_tell, Traced.result_pure, result_ofNative] at hr
          cases hr
          exact .inl rfl
      | ok q =>
          simp only [hq, Traced.result_bind, Traced.result_tell, Traced.result_pure, result_ofNative] at hr
          obtain ⟨-, -, hr⟩ := Except.bind_eq_ok.mp hr
          obtain ⟨s, hs, hr⟩ := Except.bind_eq_ok.mp hr
          cases hr
          exact .inr ⟨p, q, hp, hq, hs, rfl⟩

theorem get?_rounded {vs : List (Variable Int64)} {ns : List Int}
    (hns : ∀ n ∈ ns, -2 ^ 63 ≤ n ∧ n < 2 ^ 63 - 1) (v : Variable Int64) :
    (OrderedMap.ofList (vs.zip ((ns.map Double.ofInt).map Scalar.ofDouble))).get? v =
      ((valuesOf vs ns).get? v).map fun n => (Scalar.toDouble n : Double).toInt64 := by
  have hvalues : (ns.map Double.ofInt).map Scalar.ofDouble =
      (ns.map Int64.ofInt).map fun n => (Scalar.toDouble n : Double).toInt64 := by
    rw [List.map_map, List.map_map]
    refine List.map_congr_left fun n hn => ?_
    obtain ⟨hl, hu⟩ := hns n hn
    have hback : (Int64.ofInt n).toInt = n := Int64.toInt_ofInt_of_le hl (by omega)
    rw [Function.comp_apply, Function.comp_apply, ofDouble_eq, toDouble_eq, hback]
  rw [hvalues, List.zip_map_right]
  exact OrderedMap.get?_ofList_map _ _ v

theorem exists_get?_valuesOf {vs : List (Variable Int64)} {ns : List Int} (hlen : ns.length = vs.length)
    {v : Variable Int64} (hv : v ∈ vs) : ∃ n, (valuesOf vs ns).get? v = some n := by
  apply Option.isSome_iff_exists.mp
  apply OrderedMap.isSome_get?_ofList
  rw [List.map_fst_zip (by rw [List.length_map, hlen])]
  exact hv

theorem ne_largest_of_get?_valuesOf {vs : List (Variable Int64)} {ns : List Int}
    (hns : ∀ n ∈ ns, -2 ^ 63 ≤ n ∧ n < 2 ^ 63 - 1) {v : Variable Int64} {n : Int64}
    (h : (valuesOf vs ns).get? v = some n) : n ≠ Int64.maxValue := by
  obtain ⟨p, hp, rfl⟩ := List.mem_map.mp (OrderedMap.mem_of_get?_ofList h)
  obtain ⟨k, hk, hpk⟩ := List.mem_map.mp (List.of_mem_zip hp).2
  obtain ⟨hl, hu⟩ := hns k hk
  intro hmax
  have hback : (Int64.ofInt k).toInt = k := Int64.toInt_ofInt_of_le hl (by omega)
  rw [hpk, hmax, Int64.toInt_maxValue] at hback
  omega

/-- A feasible solution has the values reported last, each rounded to a real. So it has all of them
exactly if a real holds each of them. -/
theorem solveReporting_lastReport {h : Host} {optimize : Bool} {solution : Solution Int64 Int64}
    {reports : List (Values Int64 Int64)}
    (hr : (solveReporting h m ps true optimize).result = .ok (solution, reports))
    (hfeasible : solution.isFeasible = true) : ∃ last, reports.getLast? = some last ∧
      (∀ v, solution.values.get? v =
        (last.get? v).map fun n => (Scalar.toDouble n : Double).toInt64) ∧
      ∀ v ∈ m.variables, ∃ n, last.get? v = some n ∧
        (solution.values.get? v = some n ↔ (Scalar.toDouble n : Double).Holds n.toInt) := by
  rcases solveReporting_eq_ok hr with rfl | ⟨p, q, hp, hq, hanswer, rfl⟩
  · cases hfeasible
  · obtain ⟨report, hreport, hvalues⟩ := Solution.report_of_isFeasible hanswer hfeasible
    obtain ⟨ns, hns, rfl⟩ := Option.map_eq_some_iff.mp hreport
    have hacc := ofProgram_accepted hq
    have hpoint : q.Feasible ns := feasible_of_solution hns
    have hin := hacc.lt_largest hpoint
    have hget (v : Variable Int64) : solution.values.get? v =
        ((valuesOf m.variables ns).get? v).map fun n => (Scalar.toDouble n : Double).toInt64 := by
      rw [hvalues]
      exact get?_rounded hin v
    refine ⟨valuesOf m.variables ns, ?_, hget, fun v hv => ?_⟩
    · rw [if_pos rfl, List.getLast?_map, ← (run_timed _).2.1, hns]
      rfl
    · have hlen : ns.length = m.variables.length := by
        rw [← hpoint.inDomains.length_eq, ← hacc.domains.length_eq, (Program.ofModel_eq_ok hp).columns,
          List.length_map]
      obtain ⟨n, hn⟩ := exists_get?_valuesOf hlen hv
      refine ⟨n, hn, ?_⟩
      rw [hget, hn, Option.map_some, Option.some.injEq]
      exact toInt64_toDouble_iff (ne_largest_of_get?_valuesOf hin hn)

def stepVariable : Variable Int64 := ⟨"step", ⟨9007199254740992, 9007199254740994⟩, .integer⟩

def baseVariable : Variable Int64 := ⟨"base", .point 9007199254740992, .integer⟩

def stepModel : Model Int64 Int64 where
  «variables» := [stepVariable, baseVariable]
  constraints := [⟨(LinearSum.zero.addTerm stepVariable 1).addTerm baseVariable (-1), .point 1, none⟩]
  objective := ⟨.zero, false, none⟩

theorem stepModel_built : stepModel.Built := by
  have hstep : (⟨9007199254740992, 9007199254740994⟩ : Interval Int64).Built :=
    .of_le (by decide) (Double.isNaN_ofInt _) (Double.isNaN_ofInt _)
  have hdraft : Draft.Built (S := Int64) (C := Int64) ⟨[stepVariable, baseVariable], []⟩ :=
    (Draft.Built.empty.append hstep (v := stepVariable) (by decide)).append (.point _)
      (v := baseVariable) (by decide)
  exact .complete (.addConstraints hdraft (List.forall_mem_singleton.mpr
    ⟨.addTerm (.addTerm .zero _ _) _ _, .point _⟩)) .zero

def stepProgram : Program where
  name := "model"
  columns := [Program.columnOf stepVariable, Program.columnOf baseVariable]
  rows := [⟨"c0", [(1, Scalar.toDouble (-1 : Int64)), (0, Scalar.toDouble (1 : Int64))],
    Scalar.toBound (1 : Int64), Scalar.toBound (1 : Int64)⟩]
  objective := []
  offset := .zero
  maximize := false

def stepProblem : Problem where
  domains := [⟨2 ^ 53, 2 ^ 53 + 2⟩, ⟨2 ^ 53, 2 ^ 53⟩]
  rows := [⟨[1, -1], some 1, some 1⟩]
  objective := [0, 0]
  offset := 0
  maximize := false

theorem stepModel_answer : ∃ solution,
    (solveReporting bareHost stepModel {} true true).result =
      .ok (solution, [valuesOf stepModel.variables [2 ^ 53 + 1, 2 ^ 53]]) ∧
    solution.isFeasible = true ∧ solution.values.get? stepVariable = some 9007199254740992 := by
  have hkind : ∀ v ∈ stepModel.variables, v.kind ≠ .continuous := by decide
  have hprogram : Program.ofModel stepModel = .ok stepProgram := rfl
  have hproblem : Problem.ofProgram stepProgram = .ok stepProblem := by decide +kernel
  have hrun : Task.run ⟨stepProblem, true, fun _ => false⟩ =
      ⟨.optimal, some [2 ^ 53 + 1, 2 ^ 53], some 0, some 0, [[2 ^ 53 + 1, 2 ^ 53]]⟩ := by decide +kernel
  have hvalue : (OrderedMap.ofList (stepModel.variables.zip
      (([2 ^ 53 + 1, 2 ^ 53].map Double.ofInt).map Scalar.ofDouble))).get? stepVariable =
        some (9007199254740992 : Int64) := by decide +kernel
  rw [result_solveReporting hkind hprogram rfl rfl, hproblem]
  simp only [hrun]
  exact ⟨_, rfl, rfl, hvalue⟩

theorem solveReporting_lastReport_step : ∃ solution reports last,
    (solveReporting bareHost stepModel {} true true).result = .ok (solution, reports) ∧
    solution.isFeasible = true ∧ reports.getLast? = some last ∧
    (∀ v, solution.values.get? v =
      (last.get? v).map fun n => (Scalar.toDouble n : Double).toInt64) ∧
    ∀ v ∈ stepModel.variables, ∃ n, last.get? v = some n ∧
      (solution.values.get? v = some n ↔ (Scalar.toDouble n : Double).Holds n.toInt) := by
  obtain ⟨solution, hr, hfeasible, -⟩ := stepModel_answer
  obtain ⟨last, hlast, hvalues, hheld⟩ := solveReporting_lastReport hr hfeasible
  exact ⟨solution, _, last, hr, hfeasible, hlast, hvalues, hheld⟩

/-- Beyond `2 ^ 53` a solution can differ from all that was reported. -/
theorem solveReporting_unreported : stepModel.Built ∧ ∃ solution last,
    (solveReporting bareHost stepModel {} true true).result = .ok (solution, [last]) ∧
    solution.isFeasible = true ∧ last.get? stepVariable = some 9007199254740993 ∧
    solution.values.get? stepVariable = some 9007199254740992 := by
  obtain ⟨solution, hr, hfeasible, hvalue⟩ := stepModel_answer
  exact ⟨stepModel_built, solution, _, hr, hfeasible, by decide +kernel, hvalue⟩

end ExhaustiveSolver

end LinOpt
