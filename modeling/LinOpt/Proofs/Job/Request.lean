import LinOpt.Proofs.Job.Terms
import LinOpt.Proofs.Scalar.Lawful

namespace LinOpt.Job

def FiniteBounds (lower upper : Option Double) : Prop :=
  (∀ x ∈ lower, x.isFinite = true) ∧ ∀ y ∈ upper, y.isFinite = true

def BoundsInOrder (lower upper : Option Double) : Prop :=
  ∀ x ∈ lower, ∀ y ∈ upper, x.numLe y = true

def between (lower upper : Option Double) : Interval Double :=
  ⟨lower.getD .negInfinity, upper.getD .infinity⟩

theorem intervalOf_eq_ok {lower upper : Option Double} (h : FiniteBounds lower upper)
    {i : Interval Double} :
    intervalOf lower upper = .ok i ↔ BoundsInOrder lower upper ∧ i = between lower upper := by
  rw [intervalOf, Interval.new_eq_ok_iff]
  apply and_congr_left'
  cases lower with
  | none =>
      have hupper : (upper.getD .infinity).isNaN = false := by
        cases upper with
        | none => exact Double.isNaN_infinity
        | some y => exact Double.isNaN_of_isFinite (h.2 y rfl)
      simp [BoundsInOrder, Double.negInfinity_numLe hupper]
  | some x =>
      cases upper with
      | none => simp [BoundsInOrder, Double.numLe_infinity (Double.isNaN_of_isFinite (h.1 x rfl))]
      | some y => simp [BoundsInOrder]

theorem finite?_between {lower upper : Option Double} (h : FiniteBounds lower upper) :
    finite? (between lower upper).lower = lower ∧ finite? (between lower upper).upper = upper := by
  constructor
  · cases lower with
    | none => simp [between, finite?, Double.isFinite_negInfinity]
    | some x => simp [between, finite?, h.1 x rfl]
  · cases upper with
    | none => simp [between, finite?, Double.isFinite_infinity]
    | some y => simp [between, finite?, h.2 y rfl]

structure Request.FiniteBounds (r : Request) : Prop where
  «variables» : ∀ v ∈ r.variables, Job.FiniteBounds v.lower v.upper
  constraints : ∀ c ∈ r.constraints, Job.FiniteBounds c.lower c.upper

def VariableEntry.imported (v : VariableEntry) : Variable Double :=
  ⟨v.name, between v.lower v.upper, .integer⟩

theorem addVariable_eq_ok {d d' : Draft Double Double} {v : VariableEntry}
    (hfinite : FiniteBounds v.lower v.upper) : addVariable d v = .ok d' ↔
      v.name ∉ d.variables.map (·.name) ∧ BoundsInOrder v.lower v.upper ∧
        d' = { d with «variables» := d.variables ++ [v.imported] } := by
  rw [addVariable, Except.bind_eq_ok]
  simp only [intervalOf_eq_ok hfinite]
  constructor
  · rintro ⟨i, ⟨horder, rfl⟩, h⟩
    obtain ⟨⟨w, e⟩, hdeclare, h⟩ := Except.bind_eq_ok.mp h
    obtain ⟨hfresh, rfl, rfl⟩ := Draft.declare_eq_ok hdeclare
    cases h
    exact ⟨hfresh, horder, rfl⟩
  · rintro ⟨hfresh, horder, rfl⟩
    refine ⟨_, ⟨horder, rfl⟩, ?_⟩
    rw [Draft.declare_of_fresh hfresh]
    rfl

/-- Entries are taken in exactly if their names are new and distinct and their bounds in order. -/
theorem foldlM_addVariable {d d' : Draft Double Double} {vs : List VariableEntry}
    (hfinite : ∀ v ∈ vs, FiniteBounds v.lower v.upper) : vs.foldlM addVariable d = .ok d' ↔
      (vs.map (·.name)).Nodup ∧ (∀ v ∈ vs, v.name ∉ d.variables.map (·.name)) ∧
        (∀ v ∈ vs, BoundsInOrder v.lower v.upper) ∧
          d' = { d with «variables» := d.variables ++ vs.map VariableEntry.imported } := by
  induction vs generalizing d with
  | nil => simpa [pure, Except.pure] using eq_comm
  | cons v vs ih =>
      obtain ⟨hv, hvs⟩ := List.forall_mem_cons.mp hfinite
      rw [List.foldlM_cons, Except.bind_eq_ok]
      simp only [addVariable_eq_ok hv, ih hvs]
      constructor
      · rintro ⟨e, ⟨hfresh, horder, rfl⟩, hnodup, hnew, horders, rfl⟩
        have hnew' (w : VariableEntry) (hw : w ∈ vs) :
            w.name ∉ d.variables.map (·.name) ∧ w.name ≠ v.name := by
          simpa [VariableEntry.imported, not_or] using hnew w hw
        refine ⟨?_, ?_, ?_, by simp⟩
        · refine List.nodup_cons.mpr ⟨fun hmem => ?_, hnodup⟩
          obtain ⟨w, hw, hname⟩ := List.mem_map.mp hmem
          exact (hnew' w hw).2 hname
        · exact List.forall_mem_cons.mpr ⟨hfresh, fun w hw => (hnew' w hw).1⟩
        · exact List.forall_mem_cons.mpr ⟨horder, horders⟩
      · rintro ⟨hnodup, hnew, horders, rfl⟩
        obtain ⟨hname, hnodup⟩ := List.nodup_cons.mp hnodup
        obtain ⟨hfresh, hnew⟩ := List.forall_mem_cons.mp hnew
        obtain ⟨horder, horders⟩ := List.forall_mem_cons.mp horders
        refine ⟨_, ⟨hfresh, horder, rfl⟩, hnodup, fun w hw => ?_, horders, by simp⟩
        have hne : w.name ≠ v.name := fun heq => hname (List.mem_map.mpr ⟨w, hw, heq⟩)
        simpa [VariableEntry.imported, hne] using hnew w hw

structure ImportedConstraint (vs : List (Variable Double)) (c : ConstraintEntry)
    (k : Constraint Double Double) : Prop where
  bounds : BoundsInOrder c.lower c.upper
  interval : k.interval = between c.lower c.upper
  sum : sumOf vs c.terms = .ok k.sum
  name : k.name = none

theorem ImportedConstraint.finite?_bounds {vs : List (Variable Double)} {c : ConstraintEntry}
    {k : Constraint Double Double} (h : ImportedConstraint vs c k)
    (hfinite : FiniteBounds c.lower c.upper) :
    finite? k.interval.lower = c.lower ∧ finite? k.interval.upper = c.upper := by
  rw [h.interval]
  exact finite?_between hfinite

theorem addConstraint_eq_ok {d d' : Draft Double Double} {c : ConstraintEntry}
    (hfinite : FiniteBounds c.lower c.upper) : addConstraint d c = .ok d' ↔
      ∃ k, ImportedConstraint d.variables c k ∧ d' = d.addConstraint k := by
  rw [addConstraint, Except.bind_eq_ok]
  simp only [intervalOf_eq_ok hfinite]
  constructor
  · rintro ⟨i, ⟨horder, rfl⟩, h⟩
    obtain ⟨s, hs, h⟩ := Except.bind_eq_ok.mp h
    cases h
    exact ⟨_, ⟨horder, rfl, hs, rfl⟩, rfl⟩
  · rintro ⟨⟨s, i, name⟩, ⟨horder, rfl, hs, rfl⟩, rfl⟩
    refine ⟨_, ⟨horder, rfl⟩, ?_⟩
    rw [hs]
    rfl

theorem foldlM_addConstraint {d d' : Draft Double Double} {cs : List ConstraintEntry}
    (hfinite : ∀ c ∈ cs, FiniteBounds c.lower c.upper) : cs.foldlM addConstraint d = .ok d' ↔
      ∃ ks, List.Forall₂ (ImportedConstraint d.variables) cs ks ∧ d' = d.addConstraints ks := by
  induction cs generalizing d with
  | nil => simpa [pure, Except.pure, Draft.addConstraints] using eq_comm
  | cons c cs ih =>
      obtain ⟨hc, hcs⟩ := List.forall_mem_cons.mp hfinite
      rw [List.foldlM_cons, Except.bind_eq_ok]
      simp only [addConstraint_eq_ok hc, ih hcs]
      constructor
      · rintro ⟨e, ⟨k, hk, rfl⟩, ks, hks, rfl⟩
        exact ⟨k :: ks, .cons hk hks, by simp [Draft.addConstraint, Draft.addConstraints]⟩
      · rintro ⟨_, hks, rfl⟩
        cases hks with
        | cons hk hks =>
            exact ⟨_, ⟨_, hk, rfl⟩, _, hks, by simp [Draft.addConstraint, Draft.addConstraints]⟩

/-- The model that a request describes. -/
structure Imported (r : Request) (m : Model Double Double) : Prop where
  names : (r.variables.map (·.name)).Nodup
  bounds : ∀ v ∈ r.variables, BoundsInOrder v.lower v.upper
  «variables» : m.variables = r.variables.map VariableEntry.imported
  constraints : List.Forall₂ (ImportedConstraint m.variables) r.constraints m.constraints
  objective : sumOf m.variables r.objective.terms = .ok m.objective.sum
  maximize : m.objective.maximize = r.objective.maximize
  offset : m.objective.offset = r.objective.offset

theorem toModel_eq_ok {r : Request} (hfinite : r.FiniteBounds) {m : Model Double Double} :
    r.toModel = .ok m ↔ Imported r m := by
  rw [Request.toModel, Except.bind_eq_ok]
  simp only [foldlM_addVariable hfinite.variables, Except.bind_eq_ok,
    foldlM_addConstraint hfinite.constraints]
  constructor
  · rintro ⟨_, ⟨hnames, -, hbounds, rfl⟩, _, ⟨ks, hks, rfl⟩, s, hs, h⟩
    cases h
    exact ⟨hnames, hbounds, List.nil_append _, hks, hs, rfl, rfl⟩
  · rintro ⟨hnames, hbounds, hvariables, hconstraints, hobjective, hmaximize, hoffset⟩
    obtain ⟨vs, ks, s, maximize, offset⟩ := m
    obtain rfl := hvariables
    obtain rfl := hmaximize
    obtain rfl := hoffset
    exact ⟨_, ⟨hnames, fun _ _ => List.not_mem_nil, hbounds, rfl⟩, _, ⟨ks, hconstraints, rfl⟩, s,
      hobjective, rfl⟩

/-- What a request has to be for a model to come from it. -/
structure Request.Acceptable (r : Request) : Prop where
  names : (r.variables.map (·.name)).Nodup
  variableBounds : ∀ v ∈ r.variables, BoundsInOrder v.lower v.upper
  constraintBounds : ∀ c ∈ r.constraints, BoundsInOrder c.lower c.upper
  constraintTerms : ∀ c ∈ r.constraints, ∀ t ∈ c.terms, t.variableName ∈ r.variables.map (·.name)
  objectiveTerms : ∀ t ∈ r.objective.terms, t.variableName ∈ r.variables.map (·.name)

theorem names_imported (vs : List VariableEntry) :
    (vs.map VariableEntry.imported).map (·.name) = vs.map (·.name) := by
  simp [VariableEntry.imported]

theorem Imported.names_variables {r : Request} {m : Model Double Double} (h : Imported r m) :
    m.variables.map (·.name) = r.variables.map (·.name) := by
  rw [h.variables, names_imported]

theorem exists_imported {r : Request} : (∃ m, Imported r m) ↔ r.Acceptable := by
  constructor
  · rintro ⟨m, h⟩
    have hnames : (m.variables.map (·.name)).Nodup := h.names_variables ▸ h.names
    refine ⟨h.names, h.bounds, ?_, ?_, ?_⟩
    · exact forall_of_forall₂ h.constraints.flip fun k c hk => hk.bounds
    · rw [← h.names_variables]
      exact forall_of_forall₂ h.constraints.flip fun k c hk => (exists_sumOf hnames).mp ⟨_, hk.sum⟩
    · rw [← h.names_variables]
      exact (exists_sumOf hnames).mp ⟨_, h.objective⟩
  · intro h
    have hnames : ((r.variables.map VariableEntry.imported).map (·.name)).Nodup := by
      rw [names_imported]
      exact h.names
    have hsum {ts : List Term} (hts : ∀ t ∈ ts, t.variableName ∈ r.variables.map (·.name)) :
        ∃ s, sumOf (r.variables.map VariableEntry.imported) ts = .ok s := by
      rw [exists_sumOf hnames, names_imported]
      exact hts
    obtain ⟨s, hs⟩ := hsum h.objectiveTerms
    obtain ⟨ks, hks⟩ : ∃ ks, List.Forall₂
        (ImportedConstraint (r.variables.map VariableEntry.imported)) r.constraints ks := by
      apply exists_forall₂
      intro c hc
      obtain ⟨s, hs⟩ := hsum (h.constraintTerms c hc)
      exact ⟨⟨s, between c.lower c.upper, none⟩, h.constraintBounds c hc, rfl, hs, rfl⟩
    exact ⟨⟨_, ks, s, r.objective.maximize, r.objective.offset⟩, h.names, h.variableBounds, rfl, hks, hs,
      rfl, rfl⟩

/-- The same request, except that every list of terms is collected. -/
structure Normalized (r r' : Request) : Prop where
  «variables» : r'.variables = r.variables
  constraints : List.Forall₂ (fun c c' : ConstraintEntry =>
    c'.lower = c.lower ∧ c'.upper = c.upper ∧ Collected c.terms c'.terms) r.constraints r'.constraints
  objective : Collected r.objective.terms r'.objective.terms
  maximize : r'.objective.maximize = r.objective.maximize
  offset : r'.objective.offset = r.objective.offset

structure Request.InOrder (r : Request) : Prop where
  constraints : ∀ c ∈ r.constraints, Job.InOrder c.terms
  objective : Job.InOrder r.objective.terms

namespace Imported

variable {r : Request} {m : Model Double Double}

theorem variables_ofModel (h : Imported r m) (hfinite : r.FiniteBounds) :
    (Request.ofModel m).variables = r.variables := by
  rw [Request.ofModel, h.variables, List.map_map]
  conv_rhs => rw [← List.map_id r.variables]
  apply List.map_congr_left
  intro v hv
  obtain ⟨hlower, hupper⟩ := finite?_between (hfinite.variables v hv)
  exact congrArg₂ (VariableEntry.mk v.name) hlower hupper

theorem normalized (h : Imported r m) (hfinite : r.FiniteBounds) :
    Normalized r (Request.ofModel m) := by
  have hnames : (m.variables.map (·.name)).Nodup := h.names_variables ▸ h.names
  constructor
  case «variables» => exact h.variables_ofModel hfinite
  case constraints =>
    rw [Request.ofModel, List.forall₂_map_right_iff]
    refine ((List.forall₂_and_left _ _).mpr ⟨hfinite.constraints, h.constraints⟩).imp ?_
    intro c k ⟨hc, hk⟩
    obtain ⟨hlower, hupper⟩ := hk.finite?_bounds hc
    exact ⟨hlower, hupper, collected_termsOf hnames hk.sum⟩
  case objective => exact collected_termsOf hnames h.objective
  case maximize => exact h.maximize
  case offset =>
    rw [← h.offset]
    exact Option.map_id_apply

theorem ofModel_eq (h : Imported r m) (hfinite : r.FiniteBounds) (horder : r.InOrder) :
    Request.ofModel m = r := by
  have hnames : (m.variables.map (·.name)).Nodup := h.names_variables ▸ h.names
  have hnormalized := h.normalized hfinite
  have hconstraints : (Request.ofModel m).constraints = r.constraints := by
    rw [Request.ofModel, ← List.forall₂_eq_eq_eq, List.forall₂_map_left_iff]
    have hentries : ∀ c ∈ r.constraints, FiniteBounds c.lower c.upper ∧ InOrder c.terms :=
      fun c hc => ⟨hfinite.constraints c hc, horder.constraints c hc⟩
    refine ((List.forall₂_and_left _ _).mpr ⟨hentries, h.constraints⟩).flip.imp ?_
    intro k c ⟨⟨hc, hterms⟩, hk⟩
    obtain ⟨hlower, hupper⟩ := hk.finite?_bounds hc
    have hback := termsOf_eq_of_inOrder hnames hk.sum hterms
    obtain ⟨terms, lower, upper⟩ := c
    exact congr (congrArg₂ ConstraintEntry.mk hback hlower) hupper
  have hobjective : (Request.ofModel m).objective = r.objective := by
    have hback : (Request.ofModel m).objective.terms = r.objective.terms :=
      termsOf_eq_of_inOrder hnames h.objective horder.objective
    rw [ObjectiveEntry.mk.injEq]
    exact ⟨hback, hnormalized.maximize, hnormalized.offset⟩
  exact congr (congrArg₂ Request.mk hnormalized.variables hconstraints) hobjective

end Imported

namespace Normalized

variable {r r' : Request}

theorem finiteBounds (h : Normalized r r') (hr : r.FiniteBounds) : r'.FiniteBounds where
  «variables» := h.variables ▸ hr.variables
  constraints := by
    refine forall_of_forall₂ ((List.forall₂_and_left _ _).mpr ⟨hr.constraints, h.constraints⟩) ?_
    intro c c' ⟨hc, hlower, hupper, _⟩
    rw [hlower, hupper]
    exact hc

theorem inOrder (h : Normalized r r') : r'.InOrder where
  constraints := forall_of_forall₂ h.constraints fun _ _ hc => hc.2.2.inOrder
  objective := h.objective.inOrder

theorem acceptable (h : Normalized r r') (hr : r.Acceptable) : r'.Acceptable := by
  have hterms {ts us : List Term} (hcollected : Collected ts us)
      (hts : ∀ t ∈ ts, t.variableName ∈ r.variables.map (·.name)) :
      ∀ u ∈ us, u.variableName ∈ r'.variables.map (·.name) := by
    intro u hu
    obtain ⟨t, ht, hname⟩ := hcollected.mem_names hu
    rw [h.variables, ← hname]
    exact hts t ht
  constructor
  case names => exact h.variables ▸ hr.names
  case variableBounds => exact h.variables ▸ hr.variableBounds
  case constraintBounds =>
    refine forall_of_forall₂ ((List.forall₂_and_left _ _).mpr ⟨hr.constraintBounds, h.constraints⟩) ?_
    intro c c' ⟨hc, hlower, hupper, _⟩
    rw [hlower, hupper]
    exact hc
  case constraintTerms =>
    refine forall_of_forall₂ ((List.forall₂_and_left _ _).mpr ⟨hr.constraintTerms, h.constraints⟩) ?_
    intro c c' ⟨hc, _, _, hcollected⟩
    exact hterms hcollected hc
  case objectiveTerms => exact hterms h.objective hr.objectiveTerms

end Normalized

/-- A request makes a model exactly if names are distinct, bounds in order and no name is unknown.
What comes back is the request with its terms collected; so one that has nothing to collect comes back
as it was, and nothing changes the second time. Only bounds have to be finite. -/
theorem request_returns_normalized {r : Request} (hfinite : r.FiniteBounds) :
    ((∃ m, r.toModel = .ok m) ↔ r.Acceptable) ∧
    ∀ m, r.toModel = .ok m →
      Normalized r (Request.ofModel m) ∧ (r.InOrder → Request.ofModel m = r) ∧
        ∃ m', (Request.ofModel m).toModel = .ok m' ∧ Request.ofModel m' = Request.ofModel m := by
  constructor
  · simp only [toModel_eq_ok hfinite]
    exact exists_imported
  · intro m hm
    have himported := (toModel_eq_ok hfinite).mp hm
    have hnormalized := himported.normalized hfinite
    refine ⟨hnormalized, himported.ofModel_eq hfinite, ?_⟩
    -- the request that comes back is accepted in its turn, and its terms are in order
    have hfinite' := hnormalized.finiteBounds hfinite
    obtain ⟨m', hm'⟩ := exists_imported.mpr (hnormalized.acceptable (exists_imported.mp ⟨m, himported⟩))
    exact ⟨m', (toModel_eq_ok hfinite').mpr hm', hm'.ofModel_eq hfinite' hnormalized.inOrder⟩

/-- One name has two terms, with the term of a smaller name between them. -/
def scatteredRequest : Request where
  «variables» := [⟨"b", some .zero, some (.ofInt 4)⟩, ⟨"a", none, some .one⟩]
  constraints := [⟨[⟨.one, "b"⟩, ⟨.ofInt 2, "a"⟩, ⟨.ofInt 3, "b"⟩], none, some (.ofInt 6)⟩]
  objective := ⟨[⟨.one, "a"⟩], true, none⟩

theorem request_returns_normalized_scattered : scatteredRequest.FiniteBounds ∧
    ∃ m, scatteredRequest.toModel = .ok m ∧ Normalized scatteredRequest (Request.ofModel m) := by
  have hfinite : scatteredRequest.FiniteBounds := by
    constructor <;> simp [scatteredRequest, FiniteBounds] <;> decide +kernel
  have hacceptable : scatteredRequest.Acceptable := by
    constructor <;> simp [scatteredRequest, BoundsInOrder]
    decide +kernel
  obtain ⟨hmade, hreturned⟩ := request_returns_normalized hfinite
  obtain ⟨m, hm⟩ := hmade.mpr hacceptable
  exact ⟨hfinite, m, hm, (hreturned m hm).1⟩

end LinOpt.Job
