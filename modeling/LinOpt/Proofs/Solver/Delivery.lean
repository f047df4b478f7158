import LinOpt.Proofs.Mps.Given
import LinOpt.Proofs.Model.LookUp
import LinOpt.Proofs.Solver.Linear

namespace LinOpt

variable {S : Type} [Scalar S]

/-- A solution with the values of an engine. The variables stand for the columns in their order, and
a column beyond the values has none. -/
structure Delivered (p : Program) (vs : List (Variable S)) (status : SolutionStatus)
    (values : List Double) (objective : Double) (bound : Option Double) (a : Solution S Double) :
    Prop where
  status : a.status = status
  size : a.values.size = min p.columns.length values.length
  byVariable : ∀ (i : Nat) v, vs[i]? = some v → a.values.get? v = values[i]?
  byName : ∀ (i : Nat) c, p.columns[i]? = some c → a.values.byName? c.name = values[i]?
  isFeasible : a.isFeasible = true
  isOptimal : a.isOptimal = true ↔ a.status = .optimal
  objective : a.objective = some objective
  gap : a.gap.isSome = bound.isSome

/-- What becomes of an engine's answer. A status without a solution is all that is left of its
answer. The only failure is a solution without an objective. -/
structure Reported (p : Program) (vs : List (Variable S)) (answer : EngineAnswer) (switched : Bool)
    (result : Except SolveError (Solution S Double)) : Prop where
  length : vs.length = p.columns.length
  solved : ∀ values objective bound, answer.status.hasSolution = true →
    answer.report = some ⟨values, some objective, bound⟩ →
      ∃ a, result = .ok a ∧ Delivered p vs answer.status values objective bound a ∧
        a.switched = switched
  unsolved : answer.status.hasSolution = false → result = .ok {
    status := answer.status
    values := .empty
    objective := none
    isFeasible := false
    isOptimal := false
    gap := none
    switched }
  failed : ∀ e, result = .error e ↔ answer.status.hasSolution = true ∧
    answer.report.bind (·.objective) = none ∧ e = .notSolved notSolvedReason

namespace Solution

theorem ofAnswer_solved {answer : EngineAnswer} {values : List Double} {objective : Double}
    {bound : Option Double} (hstatus : answer.status.hasSolution = true)
    (hreport : answer.report = some ⟨values, some objective, bound⟩) (vs : List (Variable S)) :
    ofAnswer answer vs = .ok (.solved answer.status (OrderedMap.ofList (vs.zip values)) objective
      (bound.map (relativeDistance objective))) := by
  have hreal : values.map Scalar.ofDouble = values := List.map_id values
  rw [ofAnswer, hstatus, hreport]
  simp [hreal]

theorem ofAnswer_unsolved {answer : EngineAnswer} (hstatus : answer.status.hasSolution = false)
    (vs : List (Variable S)) :
    (ofAnswer answer vs : Except SolveError (Solution S Double)) = .ok (.unsolved answer.status) := by
  simp [ofAnswer, hstatus]

theorem ofAnswer_failed {answer : EngineAnswer} (hstatus : answer.status.hasSolution = true)
    (hobjective : answer.report.bind (·.objective) = none) (vs : List (Variable S)) :
    (ofAnswer answer vs : Except SolveError (Solution S Double)) =
      .error (.notSolved notSolvedReason) := by
  obtain ⟨status, report⟩ := answer
  rw [ofAnswer, hstatus]
  cases report with
  | none => rfl
  | some report =>
      obtain ⟨values, objective, bound⟩ := report
      obtain rfl : objective = none := hobjective
      rfl

theorem ofAnswer_delivered {p : Program} {vs : List (Variable S)}
    (hnames : vs.map (·.name) = p.columns.map (·.name)) (hnodup : (vs.map (·.name)).Nodup)
    (status : SolutionStatus) (values : List Double) (objective : Double) (bound : Option Double)
    (switched : Bool) : Delivered p vs status values objective bound
      { Solution.solved status (OrderedMap.ofList (vs.zip values)) objective
          (bound.map (relativeDistance objective)) with switched } where
  status := rfl
  size := by
    have hlen : vs.length = p.columns.length := by simpa using congrArg List.length hnames
    rw [← hlen]
    exact Values.size_ofList_zip hnodup values
  byVariable i v hv := Values.get?_ofList_zip hnodup values hv
  byName i c hc := by
    apply Values.byName?_of_position hnodup
    simp [hnames, hc]
  isFeasible := rfl
  isOptimal := by simp [solved]
  objective := rfl
  gap := by simp [solved]

end Solution

namespace LinearSolver

variable {p : Program} {vs : List (Variable S)} {ps : Parameters} {engine : Engine} {switched : Bool}
  {answer : EngineAnswer}

theorem answered_eq (hsolve : engine.solve p ps = .ok answer) :
    answered (.ok (engine, switched)) p vs ps =
      (Solution.ofAnswer answer vs).map fun a : Solution S Double => { a with switched } := by
  simp only [answered, bind, Except.bind, hsolve]
  cases (Solution.ofAnswer answer vs : Except SolveError (Solution S Double)) <;> rfl

theorem answered_reported (hnames : vs.map (·.name) = p.columns.map (·.name))
    (hnodup : (vs.map (·.name)).Nodup) (hsolve : engine.solve p ps = .ok answer) :
    Reported p vs answer switched (answered (.ok (engine, switched)) p vs ps) := by
  rw [answered_eq hsolve]
  constructor
  case length => simpa using congrArg List.length hnames
  case solved =>
    intro values objective bound hstatus hreport
    rw [Solution.ofAnswer_solved hstatus hreport]
    exact ⟨_, rfl, Solution.ofAnswer_delivered hnames hnodup _ _ _ _ switched, rfl⟩
  case unsolved =>
    intro hstatus
    rw [Solution.ofAnswer_unsolved hstatus]
    rfl
  case failed =>
    intro e
    cases hstatus : answer.status.hasSolution with
    | false => simp [Solution.ofAnswer_unsolved hstatus, Except.map]
    | true =>
        cases hobjective : answer.report.bind (·.objective) with
        | none => simp [Solution.ofAnswer_failed hstatus hobjective, Except.map, eq_comm]
        | some objective =>
            obtain ⟨⟨values, _, bound⟩, hreport, rfl⟩ := Option.bind_eq_some_iff.mp hobjective
            simp [Solution.ofAnswer_solved hstatus hreport, Except.map]

def columnVariable (c : Column) : Variable Double := ⟨c.name, ⟨c.lower, c.upper⟩, c.kind⟩

theorem mapM_variableOf {cs : List Column}
    (h : ∀ c ∈ cs, ∃ i, Interval.new c.lower c.upper = .ok i) :
    cs.mapM variableOf = .ok (cs.map columnVariable) := by
  rw [Except.mapM_eq_ok, List.forall₂_map_right_iff]
  refine List.forall₂_same.mpr fun c hc => ?_
  obtain ⟨i, hi⟩ := h c hc
  exact variableOf_eq_ok (Interval.new_eq_ok_iff.mp hi).1

/-- Without an export, what the engine answers about a model or a text is what the call answers: each
value under its variable and under the name of its column. -/
theorem solve_delivers (hexport : ps.exportPath = none) (h : Host) (s : LinearSolver)
    (hengine : (s.resolve h).result = .ok (engine, switched)) :
    (∀ {S C : Type} [Scalar S] [Scalar C] (m : Model S C) (p : Program) (answer : EngineAnswer),
      m.Built → Program.ofModel m = .ok p → engine.solve p ps = .ok answer →
        Reported p m.variables answer switched (s.solve h m ps).result) ∧
    ∀ (text : String) (p : Program) (answer : EngineAnswer), Mps.read text = .ok p →
      (∀ c ∈ p.columns, ∃ i, Interval.new c.lower c.upper = .ok i) →
        engine.solve p ps = .ok answer →
          Reported p (p.columns.map columnVariable) answer switched (s.solveText h text ps).result := by
  constructor
  · intro S C _ _ m p answer hm hp hsolve
    have hnames : m.variables.map (·.name) = p.columns.map (·.name) := by
      simp [(Program.ofModel_eq_ok hp).columns, Program.columnOf]
    rw [result_solve hp hexport, hengine]
    exact answered_reported hnames hm.names_nodup hsolve
  · intro text p answer hread hbounds hsolve
    have hnames : (p.columns.map columnVariable).map (·.name) = p.columns.map (·.name) := by
      simp [columnVariable]
    rw [result_solveText hread (mapM_variableOf hbounds) hexport, hengine]
    exact answered_reported hnames (hnames ▸ Mps.columns_nodup_of_read hread) hsolve

def scarce : EngineAnswer := ⟨.feasible, some ⟨[.one], some .one, some .zero⟩⟩

def scarceEngine : Engine := ⟨"scarce", .highs, fun _ _ => .ok scarce⟩

def oreText : String := "ROWS\n N cost\nCOLUMNS\n ore cost 1\n coal cost 2\nENDATA\n"

theorem solve_delivers_scarce :
    (flowModel.Built ∧ Program.ofModel flowModel = .ok flowProgram ∧
      Reported flowProgram flowModel.variables scarce false
        ((fixed scarceEngine).solve settledHost flowModel {}).result) ∧
    ∃ p, Mps.read oreText = .ok p ∧
      (∀ c ∈ p.columns, ∃ i, Interval.new c.lower c.upper = .ok i) ∧
      Reported p (p.columns.map columnVariable) scarce false
        ((fixed scarceEngine).solveText settledHost oreText {}).result := by
  have hexport : ({} : Parameters).exportPath = none := rfl
  have hengine : ((fixed scarceEngine).resolve settledHost).result = .ok (scarceEngine, false) := rfl
  obtain ⟨hmodel, htext⟩ := solve_delivers hexport settledHost (fixed scarceEngine) hengine
  have hprogram : Program.ofModel flowModel = .ok flowProgram := rfl
  refine ⟨⟨flowModel_built, hprogram, hmodel _ _ _ flowModel_built hprogram rfl⟩, ?_⟩
  have hbounds : (Except.toOption (Mps.read oreText)).any (fun p =>
      p.columns.all fun c => c.lower.numLe c.upper) = true := by decide +kernel
  cases hread : Mps.read oreText with
  | error e => simp [hread, Except.toOption] at hbounds
  | ok p =>
      have hnew : ∀ c ∈ p.columns, ∃ i, Interval.new c.lower c.upper = .ok i := by
        simp only [hread, Except.toOption, Option.any_some, List.all_eq_true] at hbounds
        exact fun c hc => ⟨_, Interval.new_eq_ok (hbounds c hc)⟩
      exact ⟨p, rfl, hnew, htext _ _ _ hread hnew rfl⟩

end LinearSolver

end LinOpt
