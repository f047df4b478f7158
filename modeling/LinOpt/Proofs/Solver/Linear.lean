import LinOpt.Proofs.Mps.RoundTrip
import LinOpt.Proofs.Program.Writable
import LinOpt.Proofs.Solver.Steps
import LinOpt.Solver.Linear

namespace LinOpt

structure SameColumn (c d : Column) : Prop where
  name : d.name = c.name
  lower : (d.lower == c.lower) = true
  upper : (d.upper == c.upper) = true
  integral : d.kind.isIntegral = c.kind.isIntegral

/-- The upper one of two different finite bounds is found from the width. -/
structure SameRow (r s : Row) : Prop where
  name : s.name = r.name
  coefficients : ∀ j, Mps.coefficientsIn j s = Mps.coefficientsIn j r
  lower : (s.lower == r.lower) = true
  upper : (s.upper == Mps.upperBack r) = true

structure SameProgram (p q : Program) : Prop where
  columns : List.Forall₂ SameColumn p.columns q.columns
  rows : List.Forall₂ SameRow p.rows q.rows
  costs : List.Forall₂ (fun x y => (y == x) = true) p.costs q.costs
  offset : (q.offset == p.offset) = true
  maximize : q.maximize = p.maximize

theorem Mps.isIntegral_kindBack (c : Column) : (kindBack c).isIntegral = c.kind.isIntegral := by
  rw [kindBack]
  split
  case isTrue h =>
    simp only [Bool.and_eq_true, decide_eq_true_eq] at h
    rw [h.1]
    rfl
  case isFalse => rfl

theorem Mps.RowBack.same {r s : Row} (h : RowBack r s) : SameRow r s where
  name := h.name
  coefficients j := by rw [coefficientsIn, h.terms, filter_mergeSort, coefficientsIn]
  lower := h.lower
  upper := h.upper

theorem Mps.ReadsBack.same {p q : Program} (h : ReadsBack p q) : SameProgram p q where
  columns := h.columns.imp fun c _ hc =>
    ⟨hc.name, hc.lower, hc.upper, by rw [hc.kind, isIntegral_kindBack]⟩
  rows := h.rows.imp fun _ _ => RowBack.same
  costs := by
    rw [Program.costs, Program.costs, ← h.columns.length_eq, List.forall₂_map_left_iff,
      List.forall₂_map_right_iff]
    exact List.forall₂_same.mpr fun j _ => h.cost j
  offset := h.offset
  maximize := h.maximize

namespace LinearSolver

theorem variableOf_eq_ok {c : Column} (h : c.lower.numLe c.upper = true) :
    variableOf c = .ok ⟨c.name, ⟨c.lower, c.upper⟩, c.kind⟩ := by
  rw [variableOf, Interval.new_eq_ok h]
  rfl

theorem exists_variables {cs : List Column} (h : ∀ c ∈ cs, c.lower.numLe c.upper = true) :
    ∃ vs, cs.mapM variableOf = .ok vs ∧ vs.map (·.name) = cs.map (·.name) := by
  refine ⟨cs.map fun c => ⟨c.name, ⟨c.lower, c.upper⟩, c.kind⟩, ?_, by rw [List.map_map]; rfl⟩
  rw [Except.mapM_eq_ok, List.forall₂_map_right_iff]
  exact List.forall₂_same.mpr fun c hc => variableOf_eq_ok (h c hc)

end LinearSolver

theorem SameColumn.numLe {c d : Column} (h : SameColumn c d) (hc : c.lower.numLe c.upper = true) :
    d.lower.numLe d.upper = true := by
  obtain ⟨hl, -, hlower⟩ := Double.numEq_iff.mp h.lower
  obtain ⟨hu, -, hupper⟩ := Double.numEq_iff.mp h.upper
  refine Double.numLe_iff.mpr ⟨hl, hu, ?_⟩
  rw [hlower, hupper]
  exact (Double.numLe_iff.mp hc).2.2

theorem SameProgram.names {p q : Program} (h : SameProgram p q) :
    q.columns.map (·.name) = p.columns.map (·.name) := by
  rw [← List.forall₂_eq_eq_eq, List.forall₂_map_left_iff, List.forall₂_map_right_iff]
  exact List.Forall₂.flip (h.columns.imp fun _ _ hc => hc.name)

variable {S T : Type}

structure SameSolution (a : Solution S Double) (b : Solution T Double) : Prop where
  status : a.status = b.status
  isFeasible : a.isFeasible = b.isFeasible
  isOptimal : a.isOptimal = b.isOptimal
  switched : a.switched = b.switched
  objective : a.objective = b.objective
  gap : a.gap = b.gap
  values : ∀ name, a.values.byName? name = b.values.byName? name

/-- The same error, or solutions that say the same. -/
inductive SameResult :
    Except SolveError (Solution S Double) → Except SolveError (Solution T Double) → Prop
  | error (e : SolveError) : SameResult (.error e) (.error e)
  | ok {a : Solution S Double} {b : Solution T Double} (h : SameSolution a b) :
      SameResult (.ok a) (.ok b)

theorem SameResult.switch {x : Except SolveError (Solution S Double)}
    {y : Except SolveError (Solution T Double)} (h : SameResult x y) (switched : Bool) :
    SameResult (do return { ← x with switched }) (do return { ← y with switched }) := by
  cases h with
  | error e => exact .error e
  | ok hsame => exact .ok { hsame with switched := rfl }

variable [Scalar S] [Scalar T]

theorem Solution.ofAnswer_same {vs : List (Variable S)} {ws : List (Variable T)}
    (hnames : vs.map (·.name) = ws.map (·.name)) (hnodup : (vs.map (·.name)).Nodup)
    (a : EngineAnswer) : SameResult (Solution.ofAnswer a vs) (Solution.ofAnswer a ws) := by
  rw [ofAnswer, ofAnswer]
  split
  · exact .ok ⟨rfl, rfl, rfl, rfl, rfl, rfl, fun _ => rfl⟩
  · split
    · refine .ok ⟨rfl, rfl, rfl, rfl, rfl, rfl, fun name => ?_⟩
      simp only [solved]
      rw [Values.byName?_ofList_zip hnodup, Values.byName?_ofList_zip (hnames ▸ hnodup), hnames]
    · exact .error _

namespace LinearSolver

/-- What a call answers once an engine is found: the engine is given a program, and what it finds is
told of the variables in their order. -/
def answered (resolved : Except SolveError (Engine × Bool)) (p : Program) (vs : List (Variable S))
    (ps : Parameters) : Except SolveError (Solution S Double) := do
  let (engine, switched) ← resolved
  let answer ← engine.solve p ps
  let solution ← Solution.ofAnswer answer vs
  return { solution with switched }

theorem result_run {ps : Parameters} (hexport : ps.exportPath = none) (h : Host) (s : LinearSolver)
    (p : Program) (vs : List (Variable S)) :
    (s.run h p vs ps).result = answered (s.resolve h).result p vs ps := by
  rw [run, hexport]
  simp only [Traced.result_bind, Mps.result_exportTo_none, Traced.result_tell, Traced.result_of,
    Traced.result_pure]
  rfl

theorem answered_same {resolved : Except SolveError (Engine × Bool)} {p q : Program}
    {vs : List (Variable S)} {ws : List (Variable T)} {ps : Parameters}
    (hnames : vs.map (·.name) = ws.map (·.name)) (hnodup : (vs.map (·.name)).Nodup)
    (halike : ∀ engine switched, resolved = .ok (engine, switched) →
      engine.solve p ps = engine.solve q ps) :
    SameResult (answered resolved p vs ps) (answered resolved q ws ps) := by
  cases resolved with
  | error e => exact .error e
  | ok found =>
      obtain ⟨engine, switched⟩ := found
      have hsolve := halike engine switched rfl
      simp only [answered, bind, Except.bind, hsolve]
      cases engine.solve q ps with
      | error e => exact .error e
      | ok answer =>
          exact (Solution.ofAnswer_same hnames hnodup answer).switch switched

variable {S C : Type} [Scalar S] [Scalar C] {m : Model S C}

theorem result_solve {p : Program} (hp : Program.ofModel m = .ok p) {ps : Parameters}
    (hexport : ps.exportPath = none) (h : Host) (s : LinearSolver) :
    (s.solve h m ps).result = answered (s.resolve h).result p m.variables ps := by
  rw [solve, Traced.result_bind, Model.result_program, hp]
  exact result_run hexport h s p m.variables

theorem result_solveText {text : String} {q : Program} {vs : List (Variable Double)}
    (hq : Mps.read text = .ok q) (hvs : q.columns.mapM variableOf = .ok vs) {ps : Parameters}
    (hexport : ps.exportPath = none) (h : Host) (s : LinearSolver) :
    (s.solveText h text ps).result = answered (s.resolve h).result q vs ps := by
  rw [solveText, hq]
  simp only [Traced.result_bind, Traced.result_of, Except.mapError, Except.bind, hvs]
  exact result_run hexport h s q vs

variable [LawfulScalar S] [LawfulScalar C]

/-- The text of a model is solved like the model: the engine is given programs that say the same, and
if it answers them alike, so do both calls. -/
theorem solveText_agrees (hm : m.Built) (hnumeric : m.Numeric)
    (hmarker : ∀ c ∈ m.constraints, c.name ≠ some "'MARKER'") {text : String}
    (htext : (Mps.ofModel m).result = .ok text) {ps : Parameters} (hexport : ps.exportPath = none)
    (h : Host) (s : LinearSolver) :
    ∃ p q vs, Program.ofModel m = .ok p ∧ Mps.read text = .ok q ∧ SameProgram p q ∧
      (s.solve h m ps).result = answered (s.resolve h).result p m.variables ps ∧
      (s.solveText h text ps).result = answered (s.resolve h).result q vs ps ∧
      ((∀ engine switched, (s.resolve h).result = .ok (engine, switched) →
          engine.solve p ps = engine.solve q ps) →
        SameResult (s.solve h m ps).result (s.solveText h text ps).result) := by
  obtain ⟨p, hp, hwrite⟩ := Mps.ofModel_eq_ok.mp htext
  obtain ⟨hnamed, rfl⟩ := Mps.write_eq_ok hwrite
  have hflat := Program.ofModel_eq_ok hp
  have hwritable := hflat.writable hm hnumeric hmarker
  have hread := Mps.read_textLines hnamed hwritable
  have hsame := (Mps.readsBack_programRead hnamed hwritable).same
  -- bounds that were in order are so after reading, so every column makes a variable
  have hcolumns := (List.forall₂_and_left _ _).mpr ⟨hwritable.column_bounds, hsame.columns⟩
  obtain ⟨vs, hvs, hnames⟩ := exists_variables <|
    forall_of_forall₂ hcolumns fun c d hcd => hcd.2.numLe hcd.1
  have hsolve := result_solve hp hexport h s
  have hsolveText := result_solveText hread hvs hexport h s
  refine ⟨p, Mps.programRead p, vs, hp, hread, hsame, hsolve, hsolveText, fun halike => ?_⟩
  have hvariables : m.variables.map (·.name) = vs.map (·.name) := by
    rw [hnames, hsame.names, hflat.columns, List.map_map]
    rfl
  rw [hsolve, hsolveText]
  exact answered_same hvariables hm.names_nodup halike

def flowVariable : Variable Double := ⟨"flow", .nonNegative, .continuous⟩

def valveVariable : Variable Double := ⟨"valve", .binary, .binary⟩

def flowModel : Model Double Int64 where
  «variables» := [flowVariable, valveVariable]
  constraints := [⟨(LinearSum.zero.addTerm valveVariable (-5)).addTerm flowVariable 3, ⟨1, 7⟩, none⟩]
  objective := ⟨LinearSum.zero.addTerm flowVariable 1, true, some 5⟩

theorem flowModel_built : flowModel.Built := by
  have hflow : (Interval.nonNegative : Interval Double).Built := .of_le (by decide) rfl rfl
  have hrange : (⟨1, 7⟩ : Interval Int64).Built :=
    .of_le (by decide) (Double.isNaN_ofInt _) (Double.isNaN_ofInt _)
  have hdraft : Draft.Built (S := Double) (C := Int64) ⟨[flowVariable, valveVariable], []⟩ :=
    (Draft.Built.empty.append hflow (v := flowVariable) (by decide)).append .binary
      (v := valveVariable) (by decide)
  exact .complete (.addConstraints hdraft (List.forall_mem_singleton.mpr
    ⟨.addTerm (.addTerm .zero _ _) _ _, hrange⟩)) (.addTerm .zero _ _)

theorem flowModel_numeric : flowModel.Numeric where
  intervals := List.forall_mem_cons.mpr ⟨⟨rfl, rfl⟩, List.forall_mem_singleton.mpr ⟨rfl, rfl⟩⟩
  constraints := List.forall_mem_singleton.mpr ⟨Double.isNaN_ofInt _, Double.isNaN_ofInt _⟩
  coefficients := List.forall_mem_singleton.mpr (by unfold LinearSum.Finite; decide +kernel)
  costs := by unfold LinearSum.Finite; decide +kernel
  offset x hx := by
    cases hx
    decide +kernel

def settled : Engine :=
  ⟨"settled", .highs, fun _ _ => .ok ⟨.optimal, some ⟨[.one, .zero], some .one, none⟩⟩⟩

def settledHost : Host := ⟨fun _ => some settled, fun _ => false, fun _ _ => false⟩

def flowProgram : Program where
  name := "model"
  columns := [Program.columnOf flowVariable, Program.columnOf valveVariable]
  rows := [⟨"c0", [(0, Scalar.toDouble (3 : Int64)), (1, Scalar.toDouble (-5 : Int64))],
    Scalar.toBound (1 : Int64), Scalar.toBound (7 : Int64)⟩]
  objective := [(0, Scalar.toDouble (1 : Int64))]
  offset := Scalar.toDouble (5 : Int64)
  maximize := true

theorem exists_flowText : ∃ text, (Mps.ofModel flowModel).result = .ok text := by
  have hprogram : Program.ofModel flowModel = .ok flowProgram := rfl
  have hwrite := Mps.write_of_check (show Mps.check flowProgram = .ok () from rfl)
  exact ⟨_, Mps.ofModel_eq_ok.mpr ⟨flowProgram, hprogram, hwrite⟩⟩

theorem solveText_agrees_flow : flowModel.Built ∧ flowModel.Numeric ∧
    (∀ c ∈ flowModel.constraints, c.name ≠ some "'MARKER'") ∧
      ∃ text, (Mps.ofModel flowModel).result = .ok text ∧
        SameResult ((requested .fallback).solve settledHost flowModel {}).result
          ((requested .fallback).solveText settledHost text {}).result := by
  have hmarker : ∀ c ∈ flowModel.constraints, c.name ≠ some "'MARKER'" :=
    List.forall_mem_singleton.mpr nofun
  obtain ⟨text, htext⟩ := exists_flowText
  obtain ⟨p, q, vs, -, -, -, -, -, hagrees⟩ := solveText_agrees flowModel_built flowModel_numeric hmarker
    htext (show ({} : Parameters).exportPath = none from rfl) settledHost (requested .fallback)
  refine ⟨flowModel_built, flowModel_numeric, hmarker, text, htext, hagrees fun engine switched h => ?_⟩
  cases h
  rfl

end LinearSolver

end LinOpt
