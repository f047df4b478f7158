import LinOpt.Proofs.Model.Built
import LinOpt.Proofs.Model.LookUp
import LinOpt.Proofs.Program.Writable
import LinOpt.Proofs.Solver.Steps
import LinOpt.Solver.Linear

namespace LinOpt

variable {S C : Type} [Scalar S] [Scalar C]

namespace Model

/-- The variables in constraints and then in the objective, each expression in its own order. -/
def mentioned (m : Model S C) : List (Variable S) :=
  m.constraints.flatMap (·.sum.variables) ++ m.objective.sum.variables

def isForeign (m : Model S C) (v : Variable S) : Bool := !m.variables.any v.same

end Model

namespace Program

variable {m : Model S C} {p : Program} {vs : List (Variable S)} {s : LinearSum S C}
  {ts : List (Nat × Double)}

theorem error?_index (vs : List (Variable S)) (v : Variable S) :
    Except.error? (index vs v) = Option.guard (fun v => !vs.any v.same) v := by
  rw [index]
  cases h : vs.findIdx? v.same with
  | none =>
      have hany : vs.any v.same = false := by simpa using h
      simp [Except.error?, Option.guard, hany]
  | some i =>
      have hany : vs.any v.same = true := by
        obtain ⟨hi, hsame, -⟩ := List.findIdx?_eq_some_iff_getElem.mp h
        exact List.any_eq_true.mpr ⟨vs[i], List.getElem_mem hi, hsame⟩
      simp [Except.error?, Option.guard, hany]

theorem error?_termsOf (vs : List (Variable S)) (s : LinearSum S C) :
    Except.error? (termsOf vs s) = s.variables.find? fun v => !vs.any v.same := by
  rw [termsOf, Except.error?_mapM, ← List.findSome?_guard, LinearSum.variables, OrderedMap.keys,
    List.findSome?_map]
  simp only [Except.error?_map, error?_index]
  rfl

theorem error?_ofModel (m : Model S C) :
    Except.error? (ofModel m) = m.mentioned.find? m.isForeign := by
  have hlen : m.constraints.length ≤ (RowNames.unique (m.constraints.map (·.name))).length := by
    simp [RowNames.length_unique]
  have hrows : Except.error? ((m.constraints.zip (RowNames.unique (m.constraints.map (·.name)))).mapM
      fun c => rowOf m.variables c.1 c.2) = (m.constraints.flatMap (·.sum.variables)).find? m.isForeign := by
    -- whether a row can be made does not depend on its name
    have hnames := congrArg (List.findSome? fun c => c.sum.variables.find? m.isForeign)
      (List.map_fst_zip hlen)
    rw [List.findSome?_map] at hnames
    rw [Except.error?_mapM, List.find?_flatMap, ← hnames]
    simp only [rowOf, Except.error?_map, error?_termsOf]
    rfl
  have hobjective : Except.error? (termsOf m.variables m.objective.sum) =
      m.objective.sum.variables.find? m.isForeign := error?_termsOf _ _
  rw [Model.mentioned, List.find?_append, ← hrows, ← hobjective]
  apply Except.error?_bind
  intro rows
  rw [Except.error?_bind (o := none) fun _ => rfl, Option.or_none]

theorem index_eq_iff (hnames : (vs.map (·.name)).Nodup) {u v : Variable S} {i j : Nat}
    (hu : index vs u = .ok i) (hv : vs[j]? = some v) : i = j ↔ Ord.compare v u = .eq := by
  obtain ⟨w, hw, huw⟩ := index_eq_ok hu
  constructor
  · rintro rfl
    cases hv.symm.trans hw
    exact Std.OrientedCmp.eq_symm huw
  · intro hvu
    have hname : v.name = w.name := Variable.name_eq_of_compare (Std.TransCmp.eq_trans hvu huw)
    exact position_eq_of_nodup_map hnames hw hv hname.symm

/-- The terms of an expression under column numbers. The column of a variable has one term, with the
variable's coefficient, if the expression has the variable, and none if it has not. -/
structure Spread (vs : List (Variable S)) (s : LinearSum S C) (ts : List (Nat × Double)) : Prop where
  column : ∀ j v, vs[j]? = some v →
    ts.filter (·.1 == j) = (s.coefficient? v).toList.map fun c => (j, Scalar.toDouble c)
  below : ∀ t ∈ ts, t.1 < vs.length

theorem spread_termsOf (hnames : (vs.map (·.name)).Nodup) (hs : s.terms.Sorted)
    (h : termsOf vs s = .ok ts) : Spread vs s ts := by
  refine ⟨fun j v hv => ?_, lt_of_mem_termsOf h⟩
  have hlike : List.Forall₂ (fun e t => index vs e.1 = .ok t.1 ∧ t.2 = Scalar.toDouble e.2)
      (s.terms.entries.filter fun e => compare v e.1 == .eq) (ts.filter (·.1 == j)) := by
    apply List.rel_filter _ (termsOf_eq_ok h)
    intro e t ⟨hi, _⟩
    simpa using (index_eq_iff hnames hi hv).symm
  have hcolumn : ∀ t ∈ ts.filter (·.1 == j), t.1 = j := by simp
  rw [LinearSum.coefficient?, ← hs.filter_entries v, List.map_map, ← List.forall₂_eq_eq_eq,
    List.forall₂_map_right_iff]
  refine ((List.forall₂_and_left _ _).mpr ⟨hcolumn, hlike.flip⟩).imp fun t e ⟨ht, _, hc⟩ => ?_
  exact Prod.ext ht hc

structure FaithfulRow (vs : List (Variable S)) (c : Constraint S C) (r : Row) : Prop where
  terms : Spread vs c.sum r.terms
  lower : r.lower = Scalar.toBound c.interval.lower
  upper : r.upper = Scalar.toBound c.interval.upper

/-- Columns stand for the variables and rows for the constraints, one to one and in order. -/
structure Faithful (m : Model S C) (p : Program) : Prop where
  columns : p.columns = m.variables.map fun v =>
    ⟨v.name, Scalar.toBound v.interval.lower, Scalar.toBound v.interval.upper, v.kind⟩
  rows : List.Forall₂ (FaithfulRow m.variables) m.constraints p.rows
  objective : Spread m.variables m.objective.sum p.objective
  offset : p.offset = (m.objective.offset.map Scalar.toDouble).getD .zero
  maximize : p.maximize = m.objective.maximize

theorem Flattened.faithful (h : Flattened m p) (hm : m.Built) : Faithful m p where
  columns := h.columns
  rows := by
    refine ((List.forall₂_and_left _ _).mpr ⟨hm.constraints, h.rows⟩).imp fun c r ⟨hc, hr⟩ => ?_
    exact ⟨spread_termsOf hm.names_nodup hc.sum.sorted hr.terms, hr.lower, hr.upper⟩
  objective := spread_termsOf hm.names_nodup hm.objective.sorted h.objective
  offset := h.offset
  maximize := h.maximize

end Program

namespace Model

variable {m : Model S C}

theorem error?_program (m : Model S C) : Except.error? m.program.result =
    (m.mentioned.find? m.isForeign).map fun v => .foreignVariable v.name := by
  rw [result_program, ← Program.error?_ofModel]
  cases Program.ofModel m <;> rfl

/-- A model has no linear program exactly if it mentions a variable that it does not own, and then
the first such variable is told. Otherwise the program says what the model says, and it is solved for
the variables of the model, which are in the order of the columns. -/
theorem program_faithful (hm : m.Built) :
    ((∃ e, m.program.result = .error e) ↔ ∃ v ∈ m.mentioned, m.isForeign v = true) ∧
    (∀ e, m.program.result = .error e →
      ∃ v, m.mentioned.find? m.isForeign = some v ∧ e = .foreignVariable v.name) ∧
    ∀ p, m.program.result = .ok p → Program.Faithful m p ∧
      ∀ (h : Host) (s : LinearSolver) (ps : Parameters),
        (s.solve h m ps).result = (s.run h p m.variables ps).result := by
  refine ⟨?_, fun e he => ?_, fun p hp => ⟨?_, fun h s ps => ?_⟩⟩
  · rw [← List.find?_isSome, Option.isSome_iff_exists]
    simp [← Except.error?_eq_some, error?_program]
  · have hfirst := Except.error?_eq_some.mpr he
    rw [error?_program, Option.map_eq_some_iff] at hfirst
    obtain ⟨v, hv, rfl⟩ := hfirst
    exact ⟨v, hv, rfl⟩
  · rw [result_program, Except.mapError_eq_ok] at hp
    exact (Program.ofModel_eq_ok hp).faithful hm
  · rw [LinearSolver.solve, Traced.result_bind, hp]
    rfl

def baseVariable : Variable Double := ⟨"base", ⟨.zero, .infinity⟩, .continuous⟩

def addedVariable : Variable Double := ⟨"added", .binary, .continuous⟩

/-- One variable is mentioned with the other zero as its lower bound, which is an equal variable. -/
def twinModel : Model Double Int64 where
  «variables» := [baseVariable, addedVariable]
  constraints := [⟨(LinearSum.zero.addTerm ⟨"base", ⟨-.zero, .infinity⟩, .continuous⟩ 2).addTerm addedVariable (-3),
    ⟨1, 7⟩, some "cap"⟩]
  objective := ⟨LinearSum.zero.addTerm baseVariable 1, false, none⟩

/-- One variable is mentioned as an integer variable, which is not an equal one. -/
def strayModel : Model Double Int64 := { twinModel with
  objective := ⟨(LinearSum.zero.addTerm ⟨"stray", .binary, .binary⟩ 2).addTerm
    { addedVariable with kind := .integer } 1, false, none⟩ }

theorem twinDraft_built : Draft.Built (S := Double) ⟨twinModel.variables, twinModel.constraints⟩ := by
  have hbase : baseVariable.interval.Built := .of_le (by decide) rfl rfl
  have hrange : (⟨1, 7⟩ : Interval Int64).Built :=
    .of_le (by decide) (Double.isNaN_ofInt _) (Double.isNaN_ofInt _)
  have hvariables : Draft.Built (S := Double) (C := Int64) ⟨twinModel.variables, []⟩ :=
    (Draft.Built.empty.append hbase (by decide)).append .binary (v := addedVariable) (by decide)
  exact .addConstraints hvariables (List.forall_mem_singleton.mpr
    ⟨.addTerm (.addTerm .zero _ _) _ _, hrange⟩)

theorem program_faithful_twin : twinModel.Built ∧ strayModel.Built ∧
    (∃ p, twinModel.program.result = .ok p ∧ Program.Faithful twinModel p) ∧
      strayModel.program.result = .error (.foreignVariable "added") := by
  have htwin : twinModel.Built := .complete twinDraft_built (.addTerm .zero _ _)
  have hstray : strayModel.Built := .complete twinDraft_built (.addTerm (.addTerm .zero _ _) _ _)
  refine ⟨htwin, hstray, ?_, ?_⟩
  · have hown : ∀ v ∈ twinModel.mentioned, ¬ twinModel.isForeign v = true := by decide +kernel
    cases hp : twinModel.program.result with
    | error e =>
        obtain ⟨v, hv, hforeign⟩ := (program_faithful htwin).1.mp ⟨e, hp⟩
        exact absurd hforeign (hown v hv)
    | ok p => exact ⟨p, rfl, ((program_faithful htwin).2.2 p hp).1⟩
  · have hfirst : (strayModel.mentioned.find? strayModel.isForeign).map (·.name) = some "added" := by
      decide +kernel
    obtain ⟨v, hv, hforeign⟩ : ∃ v ∈ strayModel.mentioned, strayModel.isForeign v = true := by
      rw [← List.find?_isSome, ← Option.isSome_map (f := (·.name)), hfirst]
      rfl
    obtain ⟨e, he⟩ := (program_faithful hstray).1.mpr ⟨v, hv, hforeign⟩
    obtain ⟨w, hw, rfl⟩ := (program_faithful hstray).2.1 e he
    rw [hw] at hfirst
    rw [he, show w.name = "added" from Option.some.inj hfirst]

end Model

end LinOpt
