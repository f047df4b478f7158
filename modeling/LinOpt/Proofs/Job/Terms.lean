import LinOpt.Job.Request
import LinOpt.Proofs.Except
import LinOpt.Proofs.Model.RunningSum

namespace LinOpt

namespace Variable

variable {S : Type} [Scalar S] {vs : List (Variable S)} {v w : Variable S}

theorem compare_of_name_lt (h : Ord.compare v.name w.name = .lt) : Ord.compare v w = .lt := by
  show (Ord.compare v.name w.name).then _ = .lt
  rw [h]
  rfl

theorem name_lt_of_compare (hnames : (vs.map (·.name)).Nodup) (hv : v ∈ vs) (hw : w ∈ vs)
    (h : Ord.compare v w = .lt) : Ord.compare v.name w.name = .lt := by
  cases hc : Ord.compare v.name w.name with
  | lt => rfl
  | gt =>
      have hwv : Ord.compare w v = .lt := compare_of_name_lt (Std.OrientedCmp.gt_iff_lt.mp hc)
      cases (Std.OrientedCmp.gt_iff_lt.mpr hwv).symm.trans h
  | eq =>
      obtain rfl := List.inj_on_of_nodup_map hnames hv hw (Std.LawfulEqOrd.eq_of_compare hc)
      have hself : Ord.compare v v = .eq := Std.ReflCmp.compare_self
      cases hself.symm.trans h

theorem same_iff_name_eq (hnames : (vs.map (·.name)).Nodup) (hv : v ∈ vs) (hw : w ∈ vs) :
    v.same w = true ↔ v.name = w.name := by
  constructor
  · intro h
    exact name_eq_of_compare (beq_iff_eq.mp h)
  · intro h
    obtain rfl := List.inj_on_of_nodup_map hnames hv hw h
    exact v.same_self

end Variable

/-- Every variable of the expression equals one of these. -/
def LinearSum.Over {S C : Type} [Scalar S] (vs : List (Variable S)) (s : LinearSum S C) : Prop :=
  ∀ e ∈ s.terms.entries, ∃ v ∈ vs, Ord.compare v e.1 = .eq

namespace Job

variable {vs : List (Variable Double)} {ts : List Term} {s : LinearSum Double Double}

/-- A term with the variable of its name. -/
structure Resolves (vs : List (Variable Double)) (t : Term) (e : Variable Double × Double) : Prop where
  mem : e.1 ∈ vs
  name : e.1.name = t.variableName
  coefficient : e.2 = t.coefficient

theorem sumOf_eq_ok (hnames : (vs.map (·.name)).Nodup) :
    sumOf vs ts = .ok s ↔ ∃ es, List.Forall₂ (Resolves vs) ts es ∧ s = LinearSum.ofTerms es := by
  constructor
  · intro h
    obtain ⟨es, hes, h⟩ := Except.bind_eq_ok.mp h
    cases h
    refine ⟨es, (Except.mapM_eq_ok.mp hes).imp fun t e hte => ?_, rfl⟩
    split at hte
    case h_1 v hfind =>
      cases hte
      obtain ⟨hv, hname⟩ := (Variable.find?_name_eq_some hnames).mp hfind
      exact ⟨hv, hname, rfl⟩
    case h_2 => cases hte
  · rintro ⟨es, hes, rfl⟩
    refine Except.bind_eq_ok.mpr ⟨es, Except.mapM_eq_ok.mpr (hes.imp fun t e hte => ?_), rfl⟩
    rw [(Variable.find?_name_eq_some hnames).mpr ⟨hte.mem, hte.name⟩, ← hte.coefficient]

theorem exists_sumOf (hnames : (vs.map (·.name)).Nodup) :
    (∃ s, sumOf vs ts = .ok s) ↔ ∀ t ∈ ts, t.variableName ∈ vs.map (·.name) := by
  simp only [sumOf_eq_ok hnames]
  constructor
  · rintro ⟨s, es, hes, -⟩
    refine forall_of_forall₂ hes.flip fun e t ⟨hmem, hname, _⟩ => ?_
    exact List.mem_map.mpr ⟨e.1, hmem, hname⟩
  · intro h
    induction ts with
    | nil => exact ⟨_, [], .nil, rfl⟩
    | cons t ts ih =>
        obtain ⟨ht, hts⟩ := List.forall_mem_cons.mp h
        obtain ⟨v, hv, hname⟩ := List.mem_map.mp ht
        obtain ⟨-, es, hes, -⟩ := ih hts
        exact ⟨_, (v, t.coefficient) :: es, .cons ⟨hv, hname, rfl⟩ hes, rfl⟩

def coefficientsOf (name : String) (ts : List Term) : List Double :=
  (ts.filter (·.variableName == name)).map (·.coefficient)

def InOrder (ts : List Term) : Prop :=
  ts.Pairwise fun t u => Ord.compare t.variableName u.variableName = .lt

/-- One term for each name of the given ones, in the order of names, with the running sum of the
coefficients that were given for it. -/
structure Collected (ts us : List Term) : Prop where
  inOrder : InOrder us
  terms : ∀ name, us.filter (·.variableName == name) =
    (runningSum (coefficientsOf name ts)).toList.map fun c => ⟨c, name⟩

theorem Collected.mem_names {us : List Term} (h : Collected ts us) {t : Term} (ht : t ∈ us) :
    ∃ u ∈ ts, u.variableName = t.variableName := by
  have hmem : t ∈ us.filter (·.variableName == t.variableName) := by simp [ht]
  rw [h.terms] at hmem
  cases hsum : runningSum (coefficientsOf t.variableName ts) with
  | none => simp [hsum] at hmem
  | some c =>
      have hne : coefficientsOf t.variableName ts ≠ [] := by
        rw [← isSome_runningSum, hsum]
        rfl
      simpa [coefficientsOf] using hne

theorem coefficientsOf_resolved {v : Variable Double} (hnames : (vs.map (·.name)).Nodup) (hv : v ∈ vs)
    {es : List (Variable Double × Double)} (h : List.Forall₂ (Resolves vs) ts es) :
    LinOpt.coefficientsOf v es = coefficientsOf v.name ts := by
  have hlike : List.Forall₂ (Resolves vs) (ts.filter (·.variableName == v.name))
      (es.filter fun e => v.same e.1) := by
    apply List.rel_filter _ h
    intro t e hte
    dsimp only
    rw [Variable.same_iff_name_eq hnames hv hte.mem, hte.name, beq_iff_eq, eq_comm]
  rw [LinOpt.coefficientsOf, coefficientsOf, ← List.forall₂_eq_eq_eq, List.forall₂_map_left_iff,
    List.forall₂_map_right_iff]
  exact hlike.flip.imp fun e t hte => hte.coefficient

theorem filter_termsOf {v : Variable Double} (hnames : (vs.map (·.name)).Nodup) (hv : v ∈ vs)
    (hs : s.terms.Sorted) (hmem : ∀ e ∈ s.terms.entries, e.1 ∈ vs) :
    (termsOf s).filter (·.variableName == v.name) =
      (s.coefficient? v).toList.map fun c => ⟨c, v.name⟩ := by
  have hlike : s.terms.entries.filter (fun e => e.1.name == v.name) =
      s.terms.entries.filter fun e => Ord.compare v e.1 == .eq := by
    apply List.filter_congr
    intro e he
    rw [Bool.eq_iff_iff, beq_iff_eq, eq_comm]
    exact (Variable.same_iff_name_eq hnames hv (hmem e he)).symm
  rw [LinearSum.coefficient?, ← hs.filter_entries v, ← hlike, List.map_map, termsOf, List.filter_map]
  apply List.map_congr_left
  intro e he
  have hname : e.1.name = v.name := by simpa using (List.mem_filter.mp he).2
  simp [hname, Scalar.toDouble]

theorem inOrder_termsOf (hnames : (vs.map (·.name)).Nodup) (hs : s.terms.Sorted)
    (hover : s.Over vs) : InOrder (termsOf s) := by
  apply List.pairwise_map.mpr
  refine List.Pairwise.imp_of_mem (fun {e f} he hf hlt => ?_) hs
  obtain ⟨v, hv, hve⟩ := hover e he
  obtain ⟨w, hw, hwf⟩ := hover f hf
  have hvw : Ord.compare v w = .lt := by
    rw [Std.TransCmp.congr_left hve, Std.TransCmp.congr_right hwf]
    exact hlt
  rw [← Variable.name_eq_of_compare hve, ← Variable.name_eq_of_compare hwf]
  exact Variable.name_lt_of_compare hnames hv hw hvw

theorem collected_termsOf (hnames : (vs.map (·.name)).Nodup) (h : sumOf vs ts = .ok s) :
    Collected ts (termsOf s) := by
  obtain ⟨es, hes, rfl⟩ := (sumOf_eq_ok hnames).mp h
  have hmem : ∀ e ∈ (LinearSum.ofTerms es).terms.entries, e.1 ∈ vs :=
    LinearSum.forall_mem_ofTerms (forall_of_forall₂ hes fun t e hte => hte.mem)
  have hsorted := (LinearSum.built_ofTerms es).sorted
  constructor
  case inOrder =>
    apply inOrder_termsOf hnames hsorted
    intro e he
    exact ⟨e.1, hmem e he, Std.ReflCmp.compare_self⟩
  case terms =>
    intro name
    by_cases hname : name ∈ vs.map (·.name)
    · obtain ⟨v, hv, rfl⟩ := List.mem_map.mp hname
      rw [filter_termsOf hnames hv hsorted hmem, LinearSum.coefficient?_ofTerms,
        coefficientsOf_resolved hnames hv hes]
    · have hts : ∀ t ∈ ts, t.variableName ≠ name :=
        forall_of_forall₂ hes.flip fun e t hte heq =>
          hname (List.mem_map.mpr ⟨e.1, hte.mem, hte.name.trans heq⟩)
      have hus : ∀ u ∈ termsOf (LinearSum.ofTerms es), u.variableName ≠ name :=
        List.forall_mem_map.mpr fun e he heq => hname (List.mem_map.mpr ⟨e.1, hmem e he, heq⟩)
      have hgiven : coefficientsOf name ts = [] := by simpa [coefficientsOf] using hts
      rw [hgiven]
      simpa [runningSum] using hus

theorem resolves_entries (hnames : (vs.map (·.name)).Nodup) (h : sumOf vs ts = .ok s)
    (hts : InOrder ts) : List.Forall₂ (Resolves vs) ts s.terms.entries := by
  obtain ⟨es, hes, rfl⟩ := (sumOf_eq_ok hnames).mp h
  have hsorted : es.Pairwise fun e f => Ord.compare e.1 f.1 = .lt := by
    refine pairwise_of_forall₂ hes hts fun t u e f hte huf hlt => ?_
    apply Variable.compare_of_name_lt
    rw [hte.name, huf.name]
    exact hlt
  rw [LinearSum.entries_ofTerms hsorted]
  exact hes

theorem termsOf_eq_of_inOrder (hnames : (vs.map (·.name)).Nodup) (h : sumOf vs ts = .ok s)
    (hts : InOrder ts) : termsOf s = ts := by
  rw [termsOf, ← List.forall₂_eq_eq_eq, List.forall₂_map_left_iff]
  refine (resolves_entries hnames h hts).flip.imp fun e t hte => ?_
  rw [hte.name, show (Scalar.toDouble e.2 : Double) = t.coefficient from hte.coefficient]

end Job

end LinOpt
