import LinOpt.Proofs.Mps.ReadsBack
import LinOpt.Proofs.Program.OfModel
import LinOpt.Proofs.Scalar.Lawful

namespace LinOpt.RowNames

theorem firstFree_eq (b : String) (used : List String) :
    firstFree b used = b ∨ ∃ k, firstFree b used = numbered b k := by
  rw [firstFree]
  split
  · exact .inr ⟨_, rfl⟩
  · exact .inl rfl

theorem next_eq (given taken : List String) (i : Nat) (name : Option String) :
    next given taken i name = base i name ∨
      ∃ k, next given taken i name = numbered (base i name) k := by
  simp only [next]
  split <;> split
  · exact firstFree_eq _ _
  · exact .inl rfl
  · exact firstFree_eq _ _
  · exact .inl rfl

theorem mem_assign {given : List String} {names : List (Option String)} {i : Nat}
    {taken : List String} {s : String} (h : s ∈ assign given i taken names) :
    ∃ name ∈ names, ∃ j, s = base j name ∨ ∃ k, s = numbered (base j name) k := by
  induction names generalizing i taken with
  | nil => cases h
  | cons name names ih =>
      rw [assign] at h
      rcases List.mem_cons.mp h with rfl | h
      · exact ⟨name, List.mem_cons_self, i, next_eq _ _ _ _⟩
      · obtain ⟨other, hother, hs⟩ := ih h
        exact ⟨other, List.mem_cons_of_mem _ hother, hs⟩

theorem numbered_ne {s : String} (hs : '_' ∉ s.toList) (b : String) (k : Nat) : numbered b k ≠ s := by
  rintro rfl
  have hmem : '_' ∈ (b ++ "_" ++ toString k).toList := by simp
  exact hs hmem

theorem default_ne {s : String} (hs : s.toList.head? ≠ some 'c') (i : Nat) : base i none ≠ s := by
  rintro rfl
  have hhead : ("c" ++ toString i).toList.head? = some 'c' := by simp
  exact hs hhead

theorem base_ne_marker {i : Nat} {name : Option String} (h : name ≠ some "'MARKER'") :
    base i name ≠ "'MARKER'" := by
  cases name with
  | some s => exact fun hs => h (congrArg some hs)
  | none => exact default_ne (by decide) i

theorem ne_marker_of_mem_unique {names : List (Option String)} (h : some "'MARKER'" ∉ names)
    {s : String} (hs : s ∈ unique names) : s ≠ "'MARKER'" := by
  obtain ⟨name, hname, j, rfl | ⟨k, rfl⟩⟩ := mem_assign hs
  · exact base_ne_marker fun heq => h (heq ▸ hname)
  · exact numbered_ne (by decide) _ k

end LinOpt.RowNames

namespace LinOpt

variable {S C : Type} [Scalar S] [Scalar C]

def LinearSum.Finite (s : LinearSum S C) : Prop :=
  ∀ e ∈ s.terms.entries, (Scalar.toDouble e.2).isFinite = true

/-- No bound is without a value, and coefficients and offset are finite. -/
structure Model.Numeric (m : Model S C) : Prop where
  intervals : ∀ v ∈ m.variables, v.interval.Numeric
  constraints : ∀ c ∈ m.constraints, c.interval.Numeric
  coefficients : ∀ c ∈ m.constraints, c.sum.Finite
  costs : m.objective.sum.Finite
  offset : ∀ x, m.objective.offset = some x → (Scalar.toDouble x).isFinite = true

namespace Program

variable {vs : List (Variable S)} {s : LinearSum S C} {ts : List (Nat × Double)}

theorem lt_of_mem_termsOf (h : termsOf vs s = .ok ts) : ∀ t ∈ ts, t.1 < vs.length := by
  refine forall_of_forall₂ (termsOf_eq_ok h) fun e t ⟨hi, _⟩ => ?_
  obtain ⟨w, hw, -⟩ := index_eq_ok hi
  exact (List.getElem?_eq_some_iff.mp hw).1

theorem isFinite_of_mem_termsOf (h : termsOf vs s = .ok ts) (hs : s.Finite) :
    ∀ t ∈ ts, t.2.isFinite = true := by
  refine forall_of_forall₂ ((List.forall₂_and_left _ _).mpr ⟨hs, termsOf_eq_ok h⟩) ?_
  rintro e t ⟨hfinite, -, ht⟩
  rwa [ht]

theorem pairwise_termsOf (h : termsOf vs s = .ok ts) (hs : s.terms.Sorted) :
    ts.Pairwise fun t u => t.1 ≠ u.1 := by
  refine pairwise_of_forall₂ (termsOf_eq_ok h) hs fun a b t u ⟨ht, _⟩ ⟨hu, _⟩ hlt heq => ?_
  obtain ⟨v, hv, hav⟩ := index_eq_ok ht
  obtain ⟨w, hw, hbw⟩ := index_eq_ok hu
  rw [heq, hw] at hv
  cases hv
  have hab : Ord.compare a.1 b.1 = .eq := Std.TransCmp.eq_trans hav (Std.OrientedCmp.eq_symm hbw)
  rw [hab] at hlt
  cases hlt

theorem filter_column (h : ts.Pairwise fun t u => t.1 ≠ u.1) (j : Nat) :
    ts.filter (·.1 == j) = [] ∨ ∃ t ∈ ts, ts.filter (·.1 == j) = [t] := by
  cases hfilter : ts.filter (·.1 == j) with
  | nil => exact .inl rfl
  | cons t us =>
      have hmem (u : Nat × Double) (hu : u ∈ t :: us) : u ∈ ts ∧ u.1 = j := by
        rw [← hfilter, List.mem_filter, beq_iff_eq] at hu
        exact hu
      cases us with
      | nil => exact .inr ⟨t, (hmem t List.mem_cons_self).1, rfl⟩
      | cons u us =>
          have hne : t.1 ≠ u.1 := by
            have hpairs := h.filter (·.1 == j)
            rw [hfilter] at hpairs
            exact (List.pairwise_cons.mp hpairs).1 u List.mem_cons_self
          have ht := (hmem t List.mem_cons_self).2
          have hu := (hmem u (List.mem_cons_of_mem t List.mem_cons_self)).2
          exact absurd (ht.trans hu.symm) hne

theorem isNaN_cost {p : Program} (hpairs : p.objective.Pairwise fun t u => t.1 ≠ u.1)
    (hfinite : ∀ t ∈ p.objective, t.2.isFinite = true) (j : Nat) : (p.cost j).isNaN = false := by
  rw [cost]
  rcases filter_column hpairs j with h | ⟨t, ht, h⟩
  · rw [h]
    rfl
  · rw [h]
    exact Double.isNaN_add rfl (Double.isNaN_of_isFinite (hfinite t ht))

variable {m : Model S C} {p : Program}

theorem isNaN_offset (hnumeric : m.Numeric) (h : Flattened m p) : p.offset.isNaN = false := by
  rw [h.offset]
  cases hoffset : m.objective.offset with
  | none => rfl
  | some x => exact Double.isNaN_of_isFinite (hnumeric.offset x hoffset)

variable [LawfulScalar S] [LawfulScalar C]

theorem Flattened.writable (h : Flattened m p) (hm : m.Built) (hnumeric : m.Numeric)
    (hmarker : ∀ c ∈ m.constraints, c.name ≠ some "'MARKER'") : Mps.Writable p := by
  have hcolumns : p.columns.length = m.variables.length := by rw [h.columns, List.length_map]
  have hrows := (List.forall₂_and_left (p := (· ∈ m.constraints)) _ _).mpr ⟨fun _ hc => hc, h.rows⟩
  constructor
  case terms_lt =>
    rw [hcolumns]
    exact forall_of_forall₂ hrows fun c r ⟨_, hr⟩ => lt_of_mem_termsOf hr.terms
  case objective_lt =>
    rw [hcolumns]
    exact lt_of_mem_termsOf h.objective
  case column_bounds =>
    rw [h.columns]
    refine List.forall_mem_map.mpr fun v hv => ?_
    exact (hm.intervals v hv).toBound_le (hnumeric.intervals v hv)
  case row_bounds =>
    refine forall_of_forall₂ hrows fun c r ⟨hc, hr⟩ => ?_
    rw [hr.lower, hr.upper]
    exact (hm.constraints c hc).interval.toBound_le (hnumeric.constraints c hc)
  case coefficients =>
    refine forall_of_forall₂ hrows fun c r ⟨hc, hr⟩ t ht => ?_
    exact Double.isNaN_of_isFinite (isFinite_of_mem_termsOf hr.terms (hnumeric.coefficients c hc) t ht)
  case costs =>
    exact fun j _ => isNaN_cost (pairwise_termsOf h.objective hm.objective.sorted)
      (isFinite_of_mem_termsOf h.objective hnumeric.costs) j
  case offset => exact isNaN_offset hnumeric h
  case no_marker =>
    intro r hr
    have hmem := h.rowNames ▸ List.mem_map_of_mem hr
    refine RowNames.ne_marker_of_mem_unique (fun hname => ?_) hmem
    obtain ⟨c, hc, hc'⟩ := List.mem_map.mp hname
    exact hmarker c hc hc'

end Program

end LinOpt
