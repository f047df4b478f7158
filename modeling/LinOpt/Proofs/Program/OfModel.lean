import LinOpt.Program.OfModel
import LinOpt.Proofs.Except
import LinOpt.Proofs.Model.OrderedMap

namespace LinOpt.RowNames

theorem length_assign (given : List String) (i : Nat) (taken : List String)
    (names : List (Option String)) : (assign given i taken names).length = names.length := by
  induction names generalizing i taken with
  | nil => rfl
  | cons name names ih => rw [assign, List.length_cons, List.length_cons, ih]

theorem length_unique (names : List (Option String)) : (unique names).length = names.length :=
  length_assign _ _ _ _

end LinOpt.RowNames

namespace LinOpt.Program

variable {S C : Type} [Scalar S] [Scalar C] {m : Model S C} {p : Program}

structure FlattenedRow (vs : List (Variable S)) (c : Constraint S C) (r : Row) : Prop where
  terms : termsOf vs c.sum = .ok r.terms
  lower : r.lower = Scalar.toBound c.interval.lower
  upper : r.upper = Scalar.toBound c.interval.upper

structure Flattened (m : Model S C) (p : Program) : Prop where
  name : p.name = "model"
  columns : p.columns = m.variables.map columnOf
  rows : List.Forall₂ (FlattenedRow m.variables) m.constraints p.rows
  rowNames : p.rows.map (·.name) = RowNames.unique (m.constraints.map (·.name))
  objective : termsOf m.variables m.objective.sum = .ok p.objective
  offset : p.offset = (m.objective.offset.map Scalar.toDouble).getD .zero
  maximize : p.maximize = m.objective.maximize

theorem rowOf_eq_ok {vs : List (Variable S)} {c : Constraint S C} {name : String} {r : Row}
    (h : rowOf vs c name = .ok r) : FlattenedRow vs c r ∧ r.name = name := by
  obtain ⟨ts, hts, rfl⟩ := Except.map_eq_ok.mp h
  exact ⟨⟨hts, rfl, rfl⟩, rfl⟩

theorem ofModel_eq_ok (h : ofModel m = .ok p) : Flattened m p := by
  obtain ⟨rows, hrows, h⟩ := Except.bind_eq_ok.mp h
  obtain ⟨objective, hobjective, h⟩ := Except.bind_eq_ok.mp h
  cases h
  have hlen : (RowNames.unique (m.constraints.map (·.name))).length = m.constraints.length := by
    rw [RowNames.length_unique, List.length_map]
  have hrows := (Except.mapM_eq_ok.mp hrows).imp fun _ _ => rowOf_eq_ok
  refine ⟨rfl, rfl, ?_, ?_, hobjective, rfl, rfl⟩
  · rw [← List.map_fst_zip (Nat.le_of_eq hlen.symm), List.forall₂_map_left_iff]
    exact hrows.imp fun _ _ => And.left
  · rw [← List.map_snd_zip (Nat.le_of_eq hlen), ← List.forall₂_eq_eq_eq, List.forall₂_map_left_iff,
      List.forall₂_map_right_iff]
    exact (List.Forall₂.flip (hrows.imp fun _ _ => And.right))

variable {vs : List (Variable S)} {s : LinearSum S C} {ts : List (Nat × Double)}

theorem index_eq_ok {v : Variable S} {i : Nat} (h : index vs v = .ok i) :
    ∃ w, vs[i]? = some w ∧ Ord.compare v w = .eq := by
  rw [index] at h
  cases hfind : vs.findIdx? v.same with
  | none =>
      rw [hfind] at h
      cases h
  | some j =>
      rw [hfind] at h
      cases h
      obtain ⟨hi, hsame, -⟩ := List.findIdx?_eq_some_iff_getElem.mp hfind
      exact ⟨vs[i], List.getElem?_eq_getElem hi, beq_iff_eq.mp hsame⟩

theorem termsOf_eq_ok (h : termsOf vs s = .ok ts) :
    List.Forall₂ (fun e t => index vs e.1 = .ok t.1 ∧ t.2 = Scalar.toDouble e.2) s.terms.entries ts := by
  refine (Except.mapM_eq_ok.mp h).imp fun e t ht => ?_
  obtain ⟨i, hi, rfl⟩ := Except.map_eq_ok.mp ht
  exact ⟨hi, rfl⟩

def Placed (vs : List (Variable S)) (e : Variable S × C) (t : Nat × Double) : Prop :=
  vs[t.1]? = some e.1 ∧ t.2 = Scalar.toDouble e.2

theorem index_of_mem (hnames : (vs.map (·.name)).Nodup) {v : Variable S} (hv : v ∈ vs) :
    ∃ i, index vs v = .ok i ∧ vs[i]? = some v := by
  cases hfind : vs.findIdx? v.same with
  | none => exact absurd v.same_self (by simp [List.findIdx?_eq_none_iff.mp hfind v hv])
  | some i =>
      have hi : index vs v = .ok i := by rw [index, hfind]
      obtain ⟨w, hw, hvw⟩ := index_eq_ok hi
      have hmem := List.mem_of_getElem? hw
      obtain rfl := List.inj_on_of_nodup_map hnames hv hmem (Variable.name_eq_of_compare hvw)
      exact ⟨i, hi, hw⟩

theorem exists_termsOf (hnames : (vs.map (·.name)).Nodup) (hs : ∀ e ∈ s.terms.entries, e.1 ∈ vs) :
    ∃ ts, termsOf vs s = .ok ts := by
  apply Except.exists_mapM_eq_ok
  intro e he
  obtain ⟨i, hi, -⟩ := index_of_mem hnames (hs e he)
  exact ⟨_, Except.map_eq_ok.mpr ⟨i, hi, rfl⟩⟩

theorem placed_of_termsOf (hnames : (vs.map (·.name)).Nodup) (hs : ∀ e ∈ s.terms.entries, e.1 ∈ vs)
    (h : termsOf vs s = .ok ts) : List.Forall₂ (Placed vs) s.terms.entries ts := by
  refine ((List.forall₂_and_left _ _).mpr ⟨hs, termsOf_eq_ok h⟩).imp fun e t ⟨he, hi, ht⟩ => ?_
  obtain ⟨j, hj, hvs⟩ := index_of_mem hnames he
  cases hi.symm.trans hj
  exact ⟨hvs, ht⟩

/-- Constraints and objective mention variables of the model only. -/
structure Closed (m : Model S C) : Prop where
  constraints : ∀ c ∈ m.constraints, ∀ e ∈ c.sum.terms.entries, e.1 ∈ m.variables
  objective : ∀ e ∈ m.objective.sum.terms.entries, e.1 ∈ m.variables

theorem exists_ofModel (hnames : (m.variables.map (·.name)).Nodup) (hclosed : Closed m) :
    ∃ p, ofModel m = .ok p := by
  obtain ⟨objective, hobjective⟩ := exists_termsOf hnames hclosed.objective
  obtain ⟨rows, hrows⟩ : ∃ rows, (m.constraints.zip (RowNames.unique (m.constraints.map (·.name)))).mapM
      (fun c => rowOf m.variables c.1 c.2) = .ok rows := by
    apply Except.exists_mapM_eq_ok
    intro c hc
    obtain ⟨ts, hts⟩ := exists_termsOf hnames (hclosed.constraints c.1 (List.of_mem_zip hc).1)
    exact ⟨_, Except.map_eq_ok.mpr ⟨ts, hts, rfl⟩⟩
  exact ⟨_, Except.bind_eq_ok.mpr ⟨rows, hrows, Except.bind_eq_ok.mpr ⟨objective, hobjective, rfl⟩⟩⟩

end LinOpt.Program
