import LinOpt.Model.Basic
import LinOpt.Proofs.Model.OrderedMap

namespace LinOpt

variable {S C : Type}

theorem Draft.declare_eq_ok {d d' : Draft S C} {kind : VariableKind} {i : Interval S} {name : String}
    {v : Variable S} (h : d.declare kind i name = .ok (v, d')) :
    name ∉ d.variables.map (·.name) ∧ v = ⟨name, i, kind⟩ ∧
      d' = { d with «variables» := d.variables ++ [v] } := by
  rw [declare] at h
  split at h
  case isTrue => cases h
  case isFalse hfresh =>
    cases h
    refine ⟨fun hmem => hfresh ?_, rfl, rfl⟩
    obtain ⟨w, hw, hname⟩ := List.mem_map.mp hmem
    exact List.any_eq_true.mpr ⟨w, hw, beq_iff_eq.mpr hname⟩

theorem Draft.declare_of_fresh {d : Draft S C} {name : String} (hfresh : name ∉ d.variables.map (·.name))
    (kind : VariableKind) (i : Interval S) : d.declare kind i name =
      .ok (⟨name, i, kind⟩, { d with «variables» := d.variables ++ [⟨name, i, kind⟩] }) := by
  have hany : d.variables.any (·.name == name) = false := by
    rw [List.any_eq_false]
    exact fun w hw hname => hfresh (List.mem_map.mpr ⟨w, hw, beq_iff_eq.mp hname⟩)
  rw [Draft.declare, hany]
  rfl

variable [Scalar S] [Scalar C]

inductive Interval.Built : Interval S → Prop
  | new {lower upper : S} {i : Interval S} (h : Interval.new lower upper = .ok i) : Built i
  | point (value : S) : Built (.point value)
  | binary : Built .binary

theorem Interval.Built.of_le {lower upper : S} (h : Scalar.rank lower ≤ Scalar.rank upper)
    (hl : (Scalar.toDouble lower).isNaN = false) (hu : (Scalar.toDouble upper).isNaN = false) :
    (⟨lower, upper⟩ : Interval S).Built := by
  have hnew : Interval.new lower upper = .ok ⟨lower, upper⟩ := by
    rw [Interval.new, hl, hu, Scalar.lt, decide_eq_false (Int.not_lt.mpr h)]
    rfl
  exact .new hnew

inductive LinearSum.Built : LinearSum S C → Prop
  | zero : Built .zero
  | addTerm {s : LinearSum S C} (hs : Built s) (v : Variable S) (c : C) : Built (s.addTerm v c)

theorem LinearSum.Built.sorted {s : LinearSum S C} (h : s.Built) : s.terms.Sorted := by
  induction h with
  | zero => exact .nil
  | addTerm _ v c ih => exact ih.insertWith _ v c

structure Constraint.Built (c : Constraint S C) : Prop where
  sum : c.sum.Built
  interval : c.interval.Built

inductive Draft.Built : Draft S C → Prop
  | empty : Built {}
  | declare {d d' : Draft S C} {kind : VariableKind} {i : Interval S} {name : String}
      {v : Variable S} (hd : Built d) (hi : i.Built) (h : d.declare kind i name = .ok (v, d')) :
      Built d'
  | addConstraints {d : Draft S C} {cs : List (Constraint S C)} (hd : Built d)
      (hcs : ∀ c ∈ cs, c.Built) : Built (d.addConstraints cs)

inductive Model.Built : Model S C → Prop
  | complete {d : Draft S C} {o : Objective S C} (hd : d.Built) (ho : o.sum.Built) :
      Built (d.complete o)

theorem Draft.Built.append {d : Draft S C} (hd : d.Built) {v : Variable S} (hv : v.interval.Built)
    (hfresh : v.name ∉ d.variables.map (·.name)) :
    Draft.Built { d with «variables» := d.variables ++ [v] } :=
  .declare hd hv (declare_of_fresh hfresh v.kind v.interval)

structure Draft.Sound (d : Draft S C) : Prop where
  names : (d.variables.map (·.name)).Nodup
  intervals : ∀ v ∈ d.variables, v.interval.Built
  constraints : ∀ c ∈ d.constraints, c.Built

theorem Draft.Built.sound {d : Draft S C} (h : d.Built) : d.Sound := by
  induction h with
  | empty => exact ⟨.nil, List.forall_mem_nil _, List.forall_mem_nil _⟩
  | declare _ hi h ih =>
      obtain ⟨hfresh, rfl, rfl⟩ := declare_eq_ok h
      refine ⟨?_, ?_, ih.constraints⟩
      · rw [List.map_append, List.map_singleton]
        exact ih.names.append (List.nodup_singleton _) (List.disjoint_singleton.mpr hfresh)
      · exact List.forall_mem_append.mpr ⟨ih.intervals, List.forall_mem_singleton.mpr hi⟩
  | addConstraints _ hcs ih =>
      exact ⟨ih.names, ih.intervals, List.forall_mem_append.mpr ⟨ih.constraints, hcs⟩⟩

namespace Model.Built

variable {m : Model S C}

theorem names_nodup (h : m.Built) : (m.variables.map (·.name)).Nodup := by
  obtain ⟨hd, _⟩ := h
  exact hd.sound.names

theorem intervals (h : m.Built) : ∀ v ∈ m.variables, v.interval.Built := by
  obtain ⟨hd, _⟩ := h
  exact hd.sound.intervals

theorem constraints (h : m.Built) : ∀ c ∈ m.constraints, c.Built := by
  obtain ⟨hd, _⟩ := h
  exact hd.sound.constraints

theorem objective (h : m.Built) : m.objective.sum.Built := by
  obtain ⟨_, ho⟩ := h
  exact ho

end Model.Built

end LinOpt
