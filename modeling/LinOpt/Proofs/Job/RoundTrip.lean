import LinOpt.Proofs.Job.Request
import LinOpt.Proofs.Program.Flattening

namespace LinOpt

/-- A request can hold the interval: a bound is finite, or it is the infinity of an open side. -/
structure Interval.Expressible (i : Interval Double) : Prop where
  numeric : i.Numeric
  lower : i.lower ≠ .infinity
  upper : i.upper ≠ .negInfinity

structure Model.Expressible (m : Model Double Double) : Prop where
  intervals : ∀ v ∈ m.variables, v.interval.Expressible
  constraints : ∀ c ∈ m.constraints, c.interval.Expressible

namespace Job

theorem finite?_eq_some {x y : Double} : finite? x = some y ↔ x.isFinite = true ∧ x = y := by
  rw [finite?, Option.ite_none_right_eq_some, Option.some.injEq]

theorem finiteBounds_finite? (x y : Double) : FiniteBounds (finite? x) (finite? y) := by
  constructor
  · intro b hb
    obtain ⟨hfinite, rfl⟩ := finite?_eq_some.mp hb
    exact hfinite
  · intro b hb
    obtain ⟨hfinite, rfl⟩ := finite?_eq_some.mp hb
    exact hfinite

theorem boundsInOrder_finite? {x y : Double} (h : x.numLe y = true) :
    BoundsInOrder (finite? x) (finite? y) := by
  intro b hb d hd
  obtain ⟨-, rfl⟩ := finite?_eq_some.mp hb
  obtain ⟨-, rfl⟩ := finite?_eq_some.mp hd
  exact h

theorem between_finite? {i : Interval Double} (h : i.Expressible) :
    between (finite? i.lower) (finite? i.upper) = i := by
  have hlower : (finite? i.lower).getD .negInfinity = i.lower := by
    cases hfinite : i.lower.isFinite with
    | true => simp [finite?, hfinite]
    | false =>
        have hopen : i.lower = .negInfinity :=
          (Double.infinity_or_negInfinity h.numeric.lower hfinite).resolve_left h.lower
        simp [finite?, hopen, Double.isFinite_negInfinity]
  have hupper : (finite? i.upper).getD .infinity = i.upper := by
    cases hfinite : i.upper.isFinite with
    | true => simp [finite?, hfinite]
    | false =>
        have hopen : i.upper = .infinity :=
          (Double.infinity_or_negInfinity h.numeric.upper hfinite).resolve_right h.upper
        simp [finite?, hopen, Double.isFinite_infinity]
  rw [between, hlower, hupper]

end Job

def Variable.asInteger (v : Variable Double) : Variable Double := { v with kind := .integer }

theorem Variable.names_asInteger_nodup {vs : List (Variable Double)} (hnames : (vs.map (·.name)).Nodup) :
    ((vs.map asInteger).map (·.name)).Nodup := by
  simpa [asInteger, Function.comp_def] using hnames

theorem Variable.asInteger_of_integer {v : Variable Double} (h : v.kind = .integer) : v.asInteger = v := by
  rw [asInteger, ← h]

def RecastTerm (vs : List (Variable Double)) (e f : Variable Double × Double) : Prop :=
  ∃ v ∈ vs, Ord.compare v e.1 = .eq ∧ f = (v.asInteger, e.2)

/-- Term by term the same expression over the integer counterparts of variables. So each of these has
the coefficient that the variable had. -/
structure Recast (vs : List (Variable Double)) (s t : LinearSum Double Double) : Prop where
  entries : List.Forall₂ (RecastTerm vs) s.terms.entries t.terms.entries
  coefficient : ∀ v ∈ vs, t.coefficient? v.asInteger = s.coefficient? v

namespace Recast

variable {vs : List (Variable Double)} {s t : LinearSum Double Double}

theorem of_entries (hnames : (vs.map (·.name)).Nodup)
    (h : List.Forall₂ (RecastTerm vs) s.terms.entries t.terms.entries) : Recast vs s t := by
  refine ⟨h, fun v hv => ?_⟩
  have hnames' := Variable.names_asInteger_nodup hnames
  apply Eq.symm
  apply map_find?_eq_of_forall₂ h
  rintro e f ⟨w, hw, hwe, rfl⟩
  refine ⟨?_, rfl⟩
  -- both comparisons say that the names are equal
  have hback := Variable.same_iff_name_eq hnames' (List.mem_map_of_mem hv) (List.mem_map_of_mem hw)
  have hgiven := Variable.same_iff_name_eq hnames hv hw
  rw [Variable.same, beq_iff_eq] at hback hgiven
  rw [Bool.eq_iff_iff, beq_iff_eq, beq_iff_eq, ← Std.TransCmp.congr_right hwe]
  exact hgiven.trans hback.symm

theorem of_sumOf (hnames : (vs.map (·.name)).Nodup) (hs : s.terms.Sorted) (hover : s.Over vs)
    (h : Job.sumOf (vs.map Variable.asInteger) (Job.termsOf s) = .ok t) : Recast vs s t := by
  apply of_entries hnames
  have hnames' := Variable.names_asInteger_nodup hnames
  have hresolved := Job.resolves_entries hnames' h (Job.inOrder_termsOf hnames hs hover)
  rw [Job.termsOf, List.forall₂_map_left_iff] at hresolved
  refine ((List.forall₂_and_left _ _).mpr ⟨hover, hresolved⟩).imp ?_
  rintro e ⟨w, c⟩ ⟨⟨v, hv, hve⟩, hw, hname, hc⟩
  obtain ⟨u, hu, rfl⟩ := List.mem_map.mp hw
  obtain rfl : u = v :=
    List.inj_on_of_nodup_map hnames hu hv (hname.trans (Variable.name_eq_of_compare hve).symm)
  exact ⟨u, hu, hve, Prod.ext rfl hc⟩

theorem same (h : Recast vs s t) (hinteger : ∀ v ∈ vs, v.kind = .integer) : t.same s = true := by
  apply isEqv_of_forall₂ h.entries.flip
  rintro f e ⟨v, hv, hve, rfl⟩
  rw [Variable.asInteger_of_integer (hinteger v hv), Bool.and_eq_true]
  exact ⟨beq_iff_eq.mpr hve, beq_self_eq_true _⟩

end Recast

structure RestoredConstraint (vs : List (Variable Double)) (c k : Constraint Double Double) : Prop where
  sum : Recast vs c.sum k.sum
  interval : k.interval = c.interval
  name : k.name = none

/-- The same model over integer variables and with nameless constraints. -/
structure Restored (m k : Model Double Double) : Prop where
  «variables» : k.variables = m.variables.map Variable.asInteger
  constraints : List.Forall₂ (RestoredConstraint m.variables) m.constraints k.constraints
  objective : Recast m.variables m.objective.sum k.objective.sum
  maximize : k.objective.maximize = m.objective.maximize
  offset : k.objective.offset = m.objective.offset

theorem Interval.compare_self (i : Interval Double) : i.compare i = .eq := by
  simp [Interval.compare, Scalar.compare, Std.ReflCmp.compare_self]

theorem Restored.same {m k : Model Double Double} (h : Restored m k)
    (hinteger : ∀ v ∈ m.variables, v.kind = .integer) (hnameless : ∀ c ∈ m.constraints, c.name = none) :
    k.same m = true := by
  have hvariables : k.variables.isEqv m.variables Variable.same = true := by
    have hlike : List.Forall₂ (fun v w => v.same w = true) k.variables m.variables := by
      rw [h.variables, List.forall₂_map_left_iff, List.forall₂_same]
      intro v hv
      rw [Variable.asInteger_of_integer (hinteger v hv)]
      exact v.same_self
    exact isEqv_of_forall₂ hlike fun _ _ hvw => hvw
  have hconstraints : k.constraints.isEqv m.constraints Constraint.same = true := by
    refine isEqv_of_forall₂ ((List.forall₂_and_left _ _).mpr ⟨hnameless, h.constraints⟩).flip ?_
    rintro d c ⟨hc, hd⟩
    rw [Constraint.same, hd.sum.same hinteger, hd.interval, hd.name, hc, Interval.compare_self]
    rfl
  have hobjective : k.objective.same m.objective = true := by
    rw [Objective.same, h.objective.same hinteger, h.maximize, h.offset]
    cases m.objective.offset <;> simp [sameOption, Scalar.same]
  rw [Model.same, hvariables, hconstraints, hobjective]
  rfl

theorem Model.over_of_own {m : Model Double Double} (hown : ∀ v ∈ m.mentioned, m.isForeign v = false) :
    (∀ c ∈ m.constraints, c.sum.Over m.variables) ∧ m.objective.sum.Over m.variables := by
  have hlike (v : Variable Double) (hv : v ∈ m.mentioned) : ∃ w ∈ m.variables, Ord.compare w v = .eq := by
    have hany : m.variables.any v.same = true := by simpa [isForeign] using hown v hv
    obtain ⟨w, hw, hvw⟩ := List.any_eq_true.mp hany
    exact ⟨w, hw, Std.OrientedCmp.eq_symm (beq_iff_eq.mp hvw)⟩
  constructor
  · intro c hc e he
    apply hlike
    exact List.mem_append_left _ (List.mem_flatMap.mpr ⟨c, hc, List.mem_map_of_mem he⟩)
  · intro e he
    apply hlike
    exact List.mem_append_right _ (List.mem_map_of_mem he)

namespace Job

variable {m k : Model Double Double}

theorem finiteBounds_ofModel (m : Model Double Double) : (Request.ofModel m).FiniteBounds where
  «variables» := List.forall_mem_map.mpr fun _ _ => finiteBounds_finite? _ _
  constraints := List.forall_mem_map.mpr fun _ _ => finiteBounds_finite? _ _

theorem acceptable_ofModel (hm : m.Built) (hown : ∀ v ∈ m.mentioned, m.isForeign v = false)
    (hexpressible : m.Expressible) : (Request.ofModel m).Acceptable := by
  have hnames : (Request.ofModel m).variables.map (·.name) = m.variables.map (·.name) := by
    simp [Request.ofModel]
  obtain ⟨hconstraints, hobjective⟩ := Model.over_of_own hown
  have hterms {s : LinearSum Double Double} (hover : s.Over m.variables) :
      ∀ t ∈ termsOf s, t.variableName ∈ (Request.ofModel m).variables.map (·.name) := by
    rw [hnames]
    refine List.forall_mem_map.mpr fun e he => ?_
    obtain ⟨v, hv, hve⟩ := hover e he
    exact List.mem_map.mpr ⟨v, hv, Variable.name_eq_of_compare hve⟩
  constructor
  case names =>
    rw [hnames]
    exact hm.names_nodup
  case variableBounds =>
    refine List.forall_mem_map.mpr fun v hv => boundsInOrder_finite? ?_
    exact (hm.intervals v hv).toBound_le (hexpressible.intervals v hv).numeric
  case constraintBounds =>
    refine List.forall_mem_map.mpr fun c hc => boundsInOrder_finite? ?_
    exact (hm.constraints c hc).interval.toBound_le (hexpressible.constraints c hc).numeric
  case constraintTerms => exact List.forall_mem_map.mpr fun c hc => hterms (hconstraints c hc)
  case objectiveTerms => exact hterms hobjective

theorem Imported.restored (h : Imported (Request.ofModel m) k) (hm : m.Built)
    (hown : ∀ v ∈ m.mentioned, m.isForeign v = false) (hexpressible : m.Expressible) :
    Restored m k := by
  have hnames := hm.names_nodup
  obtain ⟨hconstraints, hobjective⟩ := Model.over_of_own hown
  have hvariables : k.variables = m.variables.map Variable.asInteger := by
    rw [h.variables, Request.ofModel, List.map_map]
    apply List.map_congr_left
    intro v hv
    exact congrArg (Variable.mk v.name · .integer) (between_finite? (hexpressible.intervals v hv))
  constructor
  case «variables» => exact hvariables
  case constraints =>
    have himported := h.constraints
    rw [Request.ofModel, List.forall₂_map_left_iff, hvariables] at himported
    have hgiven : ∀ c ∈ m.constraints, c.Built ∧ c.sum.Over m.variables ∧ c.interval.Expressible :=
      fun c hc => ⟨hm.constraints c hc, hconstraints c hc, hexpressible.constraints c hc⟩
    refine ((List.forall₂_and_left _ _).mpr ⟨hgiven, himported⟩).imp ?_
    rintro c d ⟨⟨hbuilt, hover, hinterval⟩, hd⟩
    exact ⟨.of_sumOf hnames hbuilt.sum.sorted hover hd.sum, hd.interval.trans (between_finite? hinterval),
      hd.name⟩
  case objective =>
    apply Recast.of_sumOf hnames hm.objective.sorted hobjective
    rw [← hvariables]
    exact h.objective
  case maximize => exact h.maximize
  case offset => exact h.offset.trans Option.map_id_apply

/-- A model that mentions only its own variables comes back from its request, if the request can hold its
intervals. Keys of expressions change with the kinds of variables, but no coefficient does. -/
theorem model_comes_back (hm : m.Built) (hown : ∀ v ∈ m.mentioned, m.isForeign v = false)
    (hexpressible : m.Expressible) : ∃ k, (Request.ofModel m).toModel = .ok k ∧ Restored m k ∧
      ((∀ v ∈ m.variables, v.kind = .integer) → (∀ c ∈ m.constraints, c.name = none) →
        k.same m = true) := by
  obtain ⟨k, hk⟩ := exists_imported.mpr (acceptable_ofModel hm hown hexpressible)
  have hrestored := hk.restored hm hown hexpressible
  exact ⟨k, (toModel_eq_ok (finiteBounds_ofModel m)).mpr hk, hrestored, hrestored.same⟩

def depthVariable : Variable Double := ⟨"depth", ⟨.negInfinity, .zero⟩, .integer⟩

def boreVariable : Variable Double := ⟨"bore", ⟨.one, .infinity⟩, .integer⟩

/-- The variables are not in the order of names, and the constraint mentions one of them with the
other zero as its upper bound. -/
def boreModel : Model Double Double where
  «variables» := [depthVariable, boreVariable]
  constraints := [⟨(LinearSum.zero.addTerm ⟨"depth", ⟨.negInfinity, -.zero⟩, .integer⟩ (.ofInt 2)).addTerm
    boreVariable (.ofInt (-3)), ⟨.negInfinity, .ofInt 6⟩, none⟩]
  objective := ⟨LinearSum.zero.addTerm boreVariable .one, false, some (.ofInt 5)⟩

theorem boreModel_built : boreModel.Built := by
  have hdepth : depthVariable.interval.Built := .of_le (by decide) rfl rfl
  have hbore : boreVariable.interval.Built := .of_le (by decide) rfl rfl
  have hrange : (⟨.negInfinity, .ofInt 6⟩ : Interval Double).Built :=
    .of_le (by decide +kernel) rfl (Double.isNaN_ofInt _)
  have hvariables : Draft.Built (S := Double) (C := Double) ⟨boreModel.variables, []⟩ :=
    (Draft.Built.empty.append hdepth (by decide)).append hbore (by decide)
  exact .complete (.addConstraints hvariables (List.forall_mem_singleton.mpr
    ⟨.addTerm (.addTerm .zero _ _) _ _, hrange⟩)) (.addTerm .zero _ _)

theorem boreModel_expressible : boreModel.Expressible where
  intervals := List.forall_mem_cons.mpr ⟨⟨⟨rfl, rfl⟩, by decide, by decide⟩,
    List.forall_mem_singleton.mpr ⟨⟨rfl, rfl⟩, by decide, by decide⟩⟩
  constraints := List.forall_mem_singleton.mpr
    ⟨⟨rfl, Double.isNaN_ofInt _⟩, by decide, by decide +kernel⟩

theorem model_comes_back_bore : boreModel.Built ∧ boreModel.Expressible ∧
    (∀ v ∈ boreModel.mentioned, boreModel.isForeign v = false) ∧
      ∃ k, (Request.ofModel boreModel).toModel = .ok k ∧ Restored boreModel k ∧ k.same boreModel = true := by
  have hown : ∀ v ∈ boreModel.mentioned, boreModel.isForeign v = false := by decide +kernel
  have hinteger : ∀ v ∈ boreModel.variables, v.kind = .integer := by decide
  have hnameless : ∀ c ∈ boreModel.constraints, c.name = none := List.forall_mem_singleton.mpr rfl
  obtain ⟨k, hk, hrestored, hsame⟩ := model_comes_back boreModel_built hown boreModel_expressible
  exact ⟨boreModel_built, boreModel_expressible, hown, k, hk, hrestored, hsame hinteger hnameless⟩

end Job

end LinOpt
