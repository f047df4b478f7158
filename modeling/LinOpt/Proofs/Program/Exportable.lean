import LinOpt.Proofs.Double.Text
import LinOpt.Proofs.Program.Flattening
import LinOpt.Proofs.Program.RowNames

namespace LinOpt.RowNames

theorem isWord_numbered {b : String} (hb : Text.isWord b = true) (k : Nat) :
    Text.isWord (numbered b k) = true := by
  obtain ⟨hne, hblank⟩ := Text.isWord_iff.mp hb
  have hstem : Text.isWord (b ++ "_") = true := by
    rw [Text.isWord_iff, String.toList_append]
    refine ⟨List.append_ne_nil_of_left_ne_nil hne _, List.forall_mem_append.mpr ⟨hblank, ?_⟩⟩
    exact List.forall_mem_singleton.mpr (by decide)
  exact Double.isWord_append_toString hstem k

theorem isWord_next {given taken : List String} {i : Nat} {name : Option String}
    (h : Text.isWord (base i name) = true) : Text.isWord (next given taken i name) = true := by
  rcases next_eq given taken i name with hnext | ⟨k, hnext⟩
  · rwa [hnext]
  · rw [hnext]
    exact isWord_numbered h k

/-- A repetition of a name that is no word comes after the first row with that name, so that name is
found before it. -/
theorem find?_assign (given : List String) (i : Nat) {taken : List String}
    (htaken : ∀ s ∈ taken, Text.isWord s = true) (names : List (Option String)) :
    ((assign given i taken names).find? fun s => !Text.isWord s) =
      (names.filterMap id).find? fun s => !Text.isWord s := by
  induction names generalizing i taken with
  | nil => rfl
  | cons name names ih =>
      rw [assign]
      have hword (h : Text.isWord (base i name) = true) :
          ((next given taken i name :: assign given (i + 1) (next given taken i name :: taken) names).find?
            fun s => !Text.isWord s) = (names.filterMap id).find? fun s => !Text.isWord s := by
        have hnext : Text.isWord (next given taken i name) = true := isWord_next h
        rw [List.find?_cons_of_neg (by simp [hnext])]
        exact ih (i + 1) (List.forall_mem_cons.mpr ⟨hnext, htaken⟩)
      cases name with
      | none => exact hword (Double.isWord_append_toString (w := "c") (by decide) i)
      | some x =>
          rw [List.filterMap_cons_some (f := id) rfl]
          cases hx : Text.isWord x with
          | true =>
              exact (hword hx).trans (List.find?_cons_of_neg (by simp [hx])).symm
          | false =>
              have hfresh : x ∉ taken := by
                intro hmem
                rw [htaken x hmem] at hx
                cases hx
              rw [next_of_given hfresh, List.find?_cons_of_pos (by simp [hx]),
                List.find?_cons_of_pos (by simp [hx])]

theorem find?_unique (names : List (Option String)) :
    ((unique names).find? fun s => !Text.isWord s) =
      (names.filterMap id).find? fun s => !Text.isWord s :=
  find?_assign _ 0 (List.forall_mem_nil _) names

theorem objective_mem_unique {names : List (Option String)} :
    Mps.objectiveName ∈ unique names ↔ Mps.objectiveName ∈ names.filterMap id := by
  rw [mem_given]
  constructor
  · intro h
    obtain ⟨name, hname, j, hbase | ⟨k, hnumbered⟩⟩ := mem_assign h
    · cases name with
      | none => exact absurd hbase.symm (default_ne (by decide) j)
      | some x => rwa [hbase]
    · exact absurd hnumbered.symm (numbered_ne (by decide) _ k)
  · intro h
    rw [← List.take_length (l := names)] at h
    exact List.mem_of_mem_take (mem_take_unique_of_mem_take h)

end LinOpt.RowNames

namespace LinOpt

variable {S C : Type}

namespace Model

def givenNames (m : Model S C) : List String :=
  m.variables.map (·.name) ++ m.constraints.filterMap (·.name)

/-- The given name that cannot be written: the first one that is no word, or else that of the
objective row for a constraint. -/
def refused? (m : Model S C) : Option String :=
  (m.givenNames.find? fun name => !Text.isWord name).or
    (if Mps.objectiveName ∈ m.constraints.filterMap (·.name) then some Mps.objectiveName else none)

theorem mem_of_refused? {m : Model S C} {name : String} (h : m.refused? = some name) :
    name ∈ m.givenNames := by
  rw [refused?, Option.or_eq_some_iff, Option.ite_none_right_eq_some] at h
  rcases h with h | ⟨-, hmem, hname⟩
  · exact List.mem_of_find?_eq_some h
  · obtain rfl := Option.some.inj hname
    exact List.mem_append_right _ hmem

theorem refused?_eq_none {m : Model S C} : m.refused? = none ↔
    (∀ name ∈ m.givenNames, Text.isWord name = true) ∧
      Mps.objectiveName ∉ m.constraints.filterMap (·.name) := by
  rw [refused?, Option.or_eq_none_iff, List.find?_eq_none]
  simp

/-- What can be written: a model of its own variables under names without blanks, with no constraint
that has the name of the objective row. -/
structure Exportable [Scalar S] (m : Model S C) : Prop where
  own : ∀ v ∈ m.mentioned, ∃ w ∈ m.variables, v.same w = true
  variableNames : ∀ v ∈ m.variables, v.name ≠ "" ∧ ∀ c ∈ v.name.toList, Text.isBlank c = false
  constraintNames : ∀ c ∈ m.constraints, ∀ name, c.name = some name →
    name ≠ "" ∧ ∀ c ∈ name.toList, Text.isBlank c = false
  noObjective : ∀ c ∈ m.constraints, c.name ≠ some "OBJ"

theorem isWord_iff_name {name : String} :
    Text.isWord name = true ↔ name ≠ "" ∧ ∀ c ∈ name.toList, Text.isBlank c = false := by
  rw [Text.isWord_iff, ne_eq, String.toList_eq_nil_iff]

theorem exportable_iff [Scalar S] {m : Model S C} : m.Exportable ↔
    m.mentioned.find? m.isForeign = none ∧ m.refused? = none := by
  rw [refused?_eq_none, List.find?_eq_none]
  constructor
  · intro h
    refine ⟨fun v hv => ?_, fun name hname => ?_, fun hmem => ?_⟩
    · obtain ⟨w, hw, hsame⟩ := h.own v hv
      simpa [isForeign] using ⟨w, hw, hsame⟩
    · rw [isWord_iff_name]
      rcases List.mem_append.mp hname with hname | hname
      · obtain ⟨v, hv, rfl⟩ := List.mem_map.mp hname
        exact h.variableNames v hv
      · obtain ⟨c, hc, hc'⟩ := List.mem_filterMap.mp hname
        exact h.constraintNames c hc name hc'
    · obtain ⟨c, hc, hc'⟩ := List.mem_filterMap.mp hmem
      exact h.noObjective c hc hc'
  · rintro ⟨hown, hwords, hobjective⟩
    constructor
    case own => exact fun v hv => by simpa [isForeign] using hown v hv
    case variableNames =>
      intro v hv
      exact isWord_iff_name.mp (hwords v.name (List.mem_append_left _ (List.mem_map_of_mem hv)))
    case constraintNames =>
      intro c hc name hname
      refine isWord_iff_name.mp (hwords name (List.mem_append_right _ ?_))
      exact List.mem_filterMap.mpr ⟨c, hc, hname⟩
    case noObjective => exact fun c hc hname => hobjective (List.mem_filterMap.mpr ⟨c, hc, hname⟩)

end Model

namespace Mps

theorem error?_allowNames {taken names : List String} (hnodup : names.Nodup)
    (hnew : ∀ name ∈ names, name ∉ taken) : Except.error? (allowNames taken names) =
      (names.find? fun name => !Text.isWord name).map .invalidName := by
  induction names generalizing taken with
  | nil => rfl
  | cons name names ih =>
      obtain ⟨hmem, hnodup⟩ := List.nodup_cons.mp hnodup
      obtain ⟨htaken, hnews⟩ := List.forall_mem_cons.mp hnew
      rw [allowNames]
      cases hword : Text.isWord name with
      | false =>
          rw [List.find?_cons_of_pos (by simp [hword])]
          rfl
      | true =>
          rw [if_neg (by simp), if_neg (by simpa using htaken),
            List.find?_cons_of_neg (by simp [hword])]
          refine ih hnodup fun other hother h => ?_
          rcases List.mem_cons.mp h with rfl | h
          · exact hmem hother
          · exact hnews other hother h

variable {p : Program}

theorem error?_check (hcolumns : (p.columns.map (·.name)).Nodup) (hrows : (p.rows.map (·.name)).Nodup)
    (htitle : Text.isWord (title p) = true) : Except.error? (check p) =
      (((p.columns.map (·.name) ++ p.rows.map (·.name)).find? fun name => !Text.isWord name).or
        (if objectiveName ∈ p.rows.map (·.name) then some objectiveName else none)).map
          .invalidName := by
  have hrest : ∀ u : Unit, Except.error? (do
      if p.rows.any (·.name == objectiveName) then throw (.invalidName objectiveName)
      if !Text.isWord (title p) then throw (.invalidName (title p)) : Except Error Unit) =
      (if objectiveName ∈ p.rows.map (·.name) then some objectiveName else none).map .invalidName := by
    intro u
    by_cases hobj : objectiveName ∈ p.rows.map (·.name)
    · have hany : p.rows.any (·.name == objectiveName) = true := by simpa using hobj
      rw [if_pos hobj, hany]
      rfl
    · have hany : p.rows.any (·.name == objectiveName) = false := by simpa using hobj
      rw [if_neg hobj, hany, htitle]
      rfl
  rw [check, Except.error?_bind fun _ => Except.error?_bind hrest,
    error?_allowNames hcolumns fun _ _ => List.not_mem_nil,
    error?_allowNames hrows fun _ _ => List.not_mem_nil, List.find?_append, Option.map_or,
    Option.map_or, Option.or_assoc]

theorem error?_write (p : Program) : Except.error? (write p) = Except.error? (check p) := by
  rw [write, Except.error?_bind (o := none) fun _ => rfl, Option.or_none]

end Mps

namespace Model

variable [Scalar S] [Scalar C] {m : Model S C}

theorem error?_textOf (hm : m.Built) {p : Program} (hp : Program.Flattened m p) :
    Except.error? (Mps.textOf p) = m.refused?.map fun name => .mps (.invalidName name) := by
  have hcolumns : p.columns.map (·.name) = m.variables.map (·.name) := by
    simp [hp.columns, Program.columnOf]
  have hgiven : (m.constraints.map (·.name)).filterMap id = m.constraints.filterMap (·.name) := by
    rw [List.filterMap_map, Function.id_comp]
  have htitle : Text.isWord (Mps.title p) = true := by
    rw [Mps.title, hp.name]
    decide
  have hdistinct : (p.rows.map (·.name)).Nodup :=
    hp.rowNames ▸ RowNames.unique_nodup _
  rw [Mps.textOf, Except.error?_mapError, Mps.error?_write,
    Mps.error?_check (hcolumns ▸ hm.names_nodup) hdistinct htitle, hcolumns, hp.rowNames,
    List.find?_append, RowNames.find?_unique, Option.map_map, refused?, givenNames, List.find?_append]
  simp only [RowNames.objective_mem_unique, hgiven]
  rfl

theorem error?_ofModel (hm : m.Built) : Except.error? (Mps.ofModel m).result =
    ((m.mentioned.find? m.isForeign).map fun v => .foreignVariable v.name).or
      (m.refused?.map fun name => .mps (.invalidName name)) := by
  have hbind : (Mps.ofModel m).result = m.program.result >>= Mps.textOf := Traced.result_bind _ _
  rw [hbind, ← error?_program]
  cases hprogram : m.program.result with
  | error e => rfl
  | ok p =>
      rw [result_program, Except.mapError_eq_ok] at hprogram
      exact error?_textOf hm (Program.ofModel_eq_ok hprogram)

/-- A model can be written exactly if it mentions its own variables only, and the names that it was
given are words, with none of a constraint that of the objective row. Otherwise the first foreign
variable is told, or else a name that was given. Names never clash. -/
theorem export_exactly (hm : m.Built) :
    ((∃ text, (Mps.ofModel m).result = .ok text) ↔ m.Exportable) ∧
    (∀ e, (Mps.ofModel m).result = .error e →
      (∃ v, m.mentioned.find? m.isForeign = some v ∧ e = .foreignVariable v.name) ∨
      ∃ name ∈ m.givenNames, m.refused? = some name ∧ e = .mps (.invalidName name)) ∧
    ∀ name, (Mps.ofModel m).result ≠ .error (.mps (.duplicateName name)) := by
  have herror : ∀ e, (Mps.ofModel m).result = .error e →
      (∃ v, m.mentioned.find? m.isForeign = some v ∧ e = .foreignVariable v.name) ∨
      ∃ name ∈ m.givenNames, m.refused? = some name ∧ e = .mps (.invalidName name) := by
    intro e he
    rw [← Except.error?_eq_some, error?_ofModel hm, Option.or_eq_some_iff] at he
    rcases he with he | ⟨-, he⟩
    · obtain ⟨v, hv, rfl⟩ := Option.map_eq_some_iff.mp he
      exact .inl ⟨v, hv, rfl⟩
    · obtain ⟨name, hname, rfl⟩ := Option.map_eq_some_iff.mp he
      exact .inr ⟨name, mem_of_refused? hname, hname, rfl⟩
  refine ⟨?_, herror, fun name hname => ?_⟩
  · rw [← Except.error?_eq_none, error?_ofModel hm, exportable_iff, Option.or_eq_none_iff,
      Option.map_eq_none_iff, Option.map_eq_none_iff]
  · obtain ⟨v, -, he⟩ | ⟨other, -, -, he⟩ := herror _ hname
    · cases he
    · cases he

def rateVariable : Variable Double := ⟨"rate", .nonNegative, .continuous⟩

def limit (name : Option String) : Constraint Double Int64 :=
  ⟨LinearSum.zero.addTerm rateVariable 3, ⟨1, 7⟩, name⟩

/-- Rows that have to change their names, one of them because of a name that another row was given.
-/
def crowdedModel : Model Double Int64 where
  «variables» := [rateVariable]
  constraints := [some "cap", some "cap", none, some "c2", some "cap_1"].map limit
  objective := ⟨LinearSum.zero.addTerm rateVariable 1, true, none⟩

def reservedModel : Model Double Int64 :=
  { crowdedModel with constraints := crowdedModel.constraints ++ [limit (some "OBJ")] }

theorem limits_built (names : List (Option String)) :
    (⟨[rateVariable], names.map limit, ⟨LinearSum.zero.addTerm rateVariable 1, true, none⟩⟩ :
      Model Double Int64).Built := by
  have hrate : rateVariable.interval.Built := .of_le (by decide) rfl rfl
  have hrange : (⟨1, 7⟩ : Interval Int64).Built :=
    .of_le (by decide) (Double.isNaN_ofInt _) (Double.isNaN_ofInt _)
  have hvariables : Draft.Built (S := Double) (C := Int64) ⟨[rateVariable], []⟩ :=
    Draft.Built.empty.append hrate (v := rateVariable) (by decide)
  refine .complete (.addConstraints hvariables fun c hc => ?_) (.addTerm .zero _ _)
  obtain ⟨name, -, rfl⟩ := List.mem_map.mp hc
  exact ⟨.addTerm .zero _ _, hrange⟩

theorem export_exactly_crowded : crowdedModel.Built ∧ reservedModel.Built ∧
    (∃ text, (Mps.ofModel crowdedModel).result = .ok text) ∧
      (Mps.ofModel reservedModel).result = .error (.mps (.invalidName "OBJ")) := by
  have hcrowded : crowdedModel.Built := limits_built _
  have hreserved : reservedModel.Built :=
    limits_built [some "cap", some "cap", none, some "c2", some "cap_1", some "OBJ"]
  refine ⟨hcrowded, hreserved, (export_exactly hcrowded).1.mpr ?_, ?_⟩
  · exact exportable_iff.mpr ⟨List.find?_eq_none.mpr (by decide +kernel), by decide +kernel⟩
  · have hname : reservedModel.refused? = some "OBJ" := by decide +kernel
    cases hresult : (Mps.ofModel reservedModel).result with
    | ok text =>
        have hnone := (exportable_iff.mp ((export_exactly hreserved).1.mp ⟨text, hresult⟩)).2
        rw [hname] at hnone
        cases hnone
    | error e =>
        obtain ⟨v, hv, -⟩ | ⟨name, -, hrefused, rfl⟩ := (export_exactly hreserved).2.1 e hresult
        · have hown : ∀ v ∈ reservedModel.mentioned, ¬ reservedModel.isForeign v = true := by
            decide +kernel
          rw [List.find?_eq_none.mpr hown] at hv
          cases hv
        · obtain rfl := Option.some.inj (hname.symm.trans hrefused)
          rfl

end Model

end LinOpt
