import LinOpt.Job.Response
import LinOpt.Proofs.Double.Integers
import LinOpt.Proofs.Except
import LinOpt.Proofs.Model.Built
import LinOpt.Proofs.Model.LookUp

namespace LinOpt

namespace SolutionStatus

theorem mem_all (st : SolutionStatus) : st ∈ all := by cases st <;> decide

theorem upper_names_nodup : (all.map fun st => Text.upper st.name).Nodup := by decide +kernel

theorem ofName?_eq_some {s : String} {st : SolutionStatus} :
    ofName? s = some st ↔ Text.upper st.name = Text.upper s := by
  rw [ofName?]
  constructor
  · intro h
    simpa using List.find?_some h
  · intro h
    apply find?_eq_some_of_unique (mem_all st) (by simpa using h)
    intro other hother hupper
    have hupper : Text.upper other.name = Text.upper s := by simpa using hupper
    exact List.inj_on_of_nodup_map upper_names_nodup hother (mem_all st) (hupper.trans h.symm)

end SolutionStatus

theorem OrderedMap.Sorted.keys_nodup {κ α : Type} [Ord κ] [Std.ReflOrd κ] {es : OrderedMap κ α}
    (h : es.Sorted) : es.keys.Nodup := by
  refine List.pairwise_map.mpr (List.Pairwise.imp (fun {a b} hlt heq => ?_) h)
  have hself : compare a.1 b.1 = .eq := heq ▸ Std.ReflCmp.compare_self
  cases hlt.symm.trans hself

namespace Job

variable {S C V : Type} [Scalar S] [Scalar C] [Scalar V] {m : Model S C} {r : Response}

/-- What a status text says: the outcome of that name, and an unknown one if there is no such name. -/
structure Meant (text : Option String) (st : SolutionStatus) : Prop where
  known : ∀ s other, text = some s → Text.upper (SolutionStatus.name other) = Text.upper s → st = other
  unknown : (∀ s other, text = some s → Text.upper (SolutionStatus.name other) ≠ Text.upper s) →
    st = .unknownStatus

/-- A solution with one value for each key of the response, under the variable of that name. -/
structure Taken (m : Model S C) (r : Response) (t : Solution S Double) : Prop where
  names : (t.values.keys.map (·.name)).Perm r.values.keys
  own : ∀ v ∈ t.values.keys, v ∈ m.variables
  values : ∀ v ∈ m.variables, ∀ x, (v.name, x) ∈ r.values.entries →
    t.values.get? v = some (x.getD .nan)
  status : Meant r.status t.status
  objective : t.objective = r.objective
  isFeasible : t.isFeasible = r.isFeasible
  isOptimal : t.isOptimal = r.isOptimal
  gap : t.gap = some (r.gap.getD .largest)
  switched : t.switched = false

theorem meant_resultStatus (r : Response) : Meant r.status r.resultStatus where
  known s other hs hother := by
    rw [Response.resultStatus, hs, Option.bind_some, SolutionStatus.ofName?_eq_some.mpr hother]
    rfl
  unknown h := by
    have hnone : r.status.bind SolutionStatus.ofName? = none := by
      rw [Option.bind_eq_none_iff]
      intro s hs
      rw [Option.eq_none_iff_forall_ne_some]
      exact fun other hother => h s other hs (SolutionStatus.ofName?_eq_some.mp hother)
    rw [Response.resultStatus, hnone]
    rfl

omit [Scalar S] [Scalar C] in
theorem valueIn_eq_ok (hnames : (m.variables.map (·.name)).Nodup) {e : String × Option Double}
    {p : Variable S × Double} : valueIn m e = .ok p ↔
      p.1 ∈ m.variables ∧ p.1.name = e.1 ∧ p.2 = e.2.getD .nan := by
  rw [valueIn, Model.byName?]
  constructor
  · intro h
    split at h
    case h_1 v hv =>
      cases h
      obtain ⟨hmem, hname⟩ := (Variable.find?_name_eq_some hnames).mp hv
      exact ⟨hmem, hname, rfl⟩
    case h_2 => cases h
  · rintro ⟨hmem, hname, hvalue⟩
    rw [(Variable.find?_name_eq_some hnames).mpr ⟨hmem, hname⟩, ← hvalue]

omit [Scalar S] [Scalar C] in
theorem error?_valueIn (e : String × Option Double) : Except.error? (valueIn m e) =
    if e.1 ∈ m.variables.map (·.name) then none else some (.unknownVariable e.1) := by
  rw [valueIn, Model.byName?]
  cases hfind : m.variables.find? (·.name == e.1) with
  | some v =>
      have hname : v.name = e.1 := by simpa using List.find?_some hfind
      rw [if_pos (List.mem_map.mpr ⟨v, List.mem_of_find?_eq_some hfind, hname⟩)]
      rfl
  | none =>
      rw [if_neg]
      · rfl
      · intro hmem
        obtain ⟨v, hv, hname⟩ := List.mem_map.mp hmem
        exact List.find?_eq_none.mp hfind v hv (beq_iff_eq.mpr hname)

theorem exists_taken (hm : m.Built) (hkeys : r.values.keys.Nodup)
    (hknown : ∀ name ∈ r.values.keys, name ∈ m.variables.map (·.name)) :
    ∃ t, r.toSolution m = .ok t ∧ Taken m r t := by
  have hnames := hm.names_nodup
  have hfound : ∀ e ∈ r.values.entries, ∃ p, valueIn m e = .ok p := by
    intro e he
    rw [← Except.error?_eq_none, error?_valueIn, if_pos (hknown e.1 (List.mem_map_of_mem he))]
  obtain ⟨ps, hps⟩ := Except.exists_mapM_eq_ok hfound
  have hplaced := (Except.mapM_eq_ok.mp hps).imp fun e p h => (valueIn_eq_ok hnames).mp h
  have hpairs : ps.map (·.1.name) = r.values.keys := by
    rw [OrderedMap.keys, ← List.forall₂_eq_eq_eq, List.forall₂_map_left_iff, List.forall₂_map_right_iff]
    exact hplaced.flip.imp fun p e h => h.2.1
  have hnodup : (ps.map (·.1.name)).Nodup := hpairs ▸ hkeys
  have hperm := Values.entries_perm hnodup
  refine ⟨_, Except.bind_eq_ok.mpr ⟨ps, hps, rfl⟩, ?_⟩
  constructor
  case names =>
    rw [← hpairs, OrderedMap.keys, List.map_map]
    exact hperm.map _
  case own =>
    refine List.forall_mem_map.mpr fun p hp => ?_
    exact forall_of_forall₂ hplaced (fun e p h => h.1) p (hperm.mem_iff.mp hp)
  case values =>
    intro v hv x hx
    obtain ⟨⟨w, y⟩, hp, hw, hname, hy⟩ := exists_mem_of_forall₂ hplaced hx
    obtain rfl : w = v := List.inj_on_of_nodup_map hnames hw hv hname
    obtain rfl : y = x.getD .nan := hy
    exact Values.get?_ofList hnodup hp
  case status => exact meant_resultStatus r
  all_goals rfl

/-- A key that no variable of the model has for its name, and the first one of these in order. -/
structure FirstForeign (m : Model S C) (r : Response) (name : String) : Prop where
  given : name ∈ r.values.keys
  foreign : name ∉ m.variables.map (·.name)
  first : ∀ other ∈ r.values.keys, other ∉ m.variables.map (·.name) →
    (Ord.compare name other).isLE = true

omit [Scalar S] [Scalar C] in
theorem FirstForeign.unique {name other : String} (h : FirstForeign m r name)
    (h' : FirstForeign m r other) : name = other :=
  Std.LawfulEqOrd.eq_of_compare
    (Std.OrientedCmp.isLE_antisymm (h.first other h'.given h'.foreign) (h'.first name h.given h.foreign))

omit [Scalar C] in
theorem error?_toSolution (r : Response) (m : Model S C) : Except.error? (r.toSolution m) =
    r.values.entries.findSome? fun e =>
      if e.1 ∈ m.variables.map (·.name) then none else some (.unknownVariable e.1) := by
  rw [Response.toSolution, Except.error?_bind (o := none) fun _ => rfl, Option.or_none,
    Except.error?_mapM]
  exact congrArg (List.findSome? · r.values.entries) (funext error?_valueIn)

omit [Scalar C] in
theorem known_of_toSolution {t : Solution S Double} (h : r.toSolution m = .ok t) :
    ∀ name ∈ r.values.keys, name ∈ m.variables.map (·.name) := by
  have hnone : Except.error? (r.toSolution m) = none := Except.error?_eq_none.mpr ⟨t, h⟩
  rw [error?_toSolution, List.findSome?_eq_none_iff] at hnone
  refine List.forall_mem_map.mpr fun e he => ?_
  simpa using hnone e he

omit [Scalar C] in
theorem toSolution_eq_error (hr : r.values.Sorted) {e : BuildError} (h : r.toSolution m = .error e) :
    ∃ name, FirstForeign m r name ∧ e = .unknownVariable name := by
  rw [← Except.error?_eq_some, error?_toSolution, List.findSome?_eq_some_iff] at h
  obtain ⟨before, ⟨name, x⟩, after, hentries, hname, hbefore⟩ := h
  rw [Option.ite_none_left_eq_some, Option.some.injEq] at hname
  obtain ⟨hforeign, rfl⟩ := hname
  rw [OrderedMap.Sorted, hentries, List.pairwise_append, List.pairwise_cons] at hr
  obtain ⟨-, ⟨hafter, -⟩, -⟩ := hr
  refine ⟨name, ⟨?_, hforeign, ?_⟩, rfl⟩
  · rw [OrderedMap.keys, hentries]
    exact List.mem_map.mpr ⟨(name, x), by simp, rfl⟩
  · rw [OrderedMap.keys, hentries]
    refine List.forall_mem_map.mpr fun d hd hunknown => ?_
    rcases List.mem_append.mp hd with hd | hd
    · exact absurd (by simpa using hbefore d hd) hunknown
    · rcases List.mem_cons.mp hd with rfl | hd
      · exact Std.ReflCmp.isLE_rfl
      · exact Ordering.isLE_of_eq_lt (hafter d hd)

/-- What a model makes of a response. -/
structure Answers (m : Model S C) (r : Response) (result : Except BuildError (Solution S Double)) :
    Prop where
  taken : (∀ name ∈ r.values.keys, name ∈ m.variables.map (·.name)) → ∃ t, result = .ok t ∧ Taken m r t
  refused : (∃ e, result = .error e) ↔ ∃ name ∈ r.values.keys, name ∉ m.variables.map (·.name)
  error : ∀ e, result = .error e ↔ ∃ name, FirstForeign m r name ∧ e = .unknownVariable name

theorem toSolution_answers (hm : m.Built) (hr : r.values.Sorted) : Answers m r (r.toSolution m) := by
  have hfails : (∃ name ∈ r.values.keys, name ∉ m.variables.map (·.name)) →
      ∃ e, r.toSolution m = .error e := by
    rintro ⟨name, hname, hforeign⟩
    cases hresult : r.toSolution m with
    | error e => exact ⟨e, rfl⟩
    | ok t => exact absurd (known_of_toSolution hresult name hname) hforeign
  constructor
  case taken => exact exists_taken hm hr.keys_nodup
  case refused =>
    refine ⟨fun ⟨e, he⟩ => ?_, hfails⟩
    obtain ⟨name, h, -⟩ := toSolution_eq_error hr he
    exact ⟨name, h.given, h.foreign⟩
  case error =>
    intro e
    refine ⟨toSolution_eq_error hr, ?_⟩
    rintro ⟨name, h, rfl⟩
    obtain ⟨e, he⟩ := hfails ⟨name, h.given, h.foreign⟩
    obtain ⟨other, h', rfl⟩ := toSolution_eq_error hr he
    rw [he, h'.unique h]

/-- A solution that came back, with its values as reals. -/
structure CameBack (m : Model S C) (s : Solution S V) (t : Solution S Double) : Prop where
  status : t.status = s.status
  isFeasible : t.isFeasible = s.isFeasible
  isOptimal : t.isOptimal = s.isOptimal
  objective : t.objective = s.objective
  gap : t.gap = some (s.gap.getD .largest)
  values : ∀ v ∈ m.variables, t.values.get? v = (s.values.get? v).map Scalar.toDouble
  keys : t.values.keys.Perm m.variables

omit [Scalar C] in
theorem entries_ofSolution_perm (hnames : (m.variables.map (·.name)).Nodup) (s : Solution S V) :
    (Response.ofSolution s m).values.entries.Perm
      (m.variables.map fun v => (v.name, (s.values.get? v).map Scalar.toDouble)) := by
  apply OrderedMap.entries_ofList_perm
  refine List.pairwise_map.mpr ((List.pairwise_map.mp hnames).imp fun hne hc => ?_)
  exact hne (Std.LawfulEqOrd.eq_of_compare hc).symm

theorem exists_cameBack (hm : m.Built) {s : Solution S V}
    (hvalues : ∀ v ∈ m.variables, (s.values.get? v).isSome = true) :
    ∃ t, (Response.ofSolution s m).toSolution m = .ok t ∧ CameBack m s t := by
  have hnames := hm.names_nodup
  have hperm := entries_ofSolution_perm hnames s
  have hkeys : (Response.ofSolution s m).values.keys.Perm (m.variables.map (·.name)) := by
    have hmap := hperm.map (·.1)
    rwa [List.map_map] at hmap
  obtain ⟨t, ht, htaken⟩ := exists_taken hm (hkeys.nodup_iff.mpr hnames) fun name => hkeys.mem_iff.mp
  refine ⟨t, ht, ?_⟩
  constructor
  case status => exact htaken.status.known s.status.name s.status rfl rfl
  case isFeasible => exact htaken.isFeasible
  case isOptimal => exact htaken.isOptimal
  case objective => exact htaken.objective
  case gap => exact htaken.gap
  case values =>
    intro v hv
    obtain ⟨x, hx⟩ := Option.isSome_iff_exists.mp (hvalues v hv)
    rw [hx]
    exact htaken.values v hv _ (hperm.mem_iff.mpr (List.mem_map.mpr ⟨v, hv, by rw [hx]⟩))
  case keys =>
    have hback : (t.values.keys.map (·.name)).Perm (m.variables.map (·.name)) := htaken.names.trans hkeys
    refine (List.perm_ext_iff_of_nodup (hback.nodup_iff.mpr hnames).of_map hnames.of_map).mpr fun v => ?_
    refine ⟨htaken.own v, fun hv => ?_⟩
    obtain ⟨w, hw, hname⟩ := List.mem_map.mp (hback.mem_iff.mpr (List.mem_map_of_mem hv))
    obtain rfl := List.inj_on_of_nodup_map hnames (htaken.own w hw) hv hname
    exact hw

/-- A solution with a value for every variable of its model comes back from its response, and a missing gap
comes back as the largest number. Of all responses a model refuses those with a foreign name, for the
first of these names in order. -/
theorem solution_comes_back (hm : m.Built) :
    (∀ s : Solution S V, (∀ v ∈ m.variables, (s.values.get? v).isSome = true) →
      ∃ t, (Response.ofSolution s m).toSolution m = .ok t ∧ CameBack m s t) ∧
    ∀ r : Response, r.values.Sorted → Answers m r (r.toSolution m) :=
  ⟨fun _ => exists_cameBack hm, fun _ => toSolution_answers hm⟩

def siloVariable : Variable Int64 := ⟨"silo", ⟨0, 9⟩, .integer⟩

def barnVariable : Variable Int64 := ⟨"barn", .binary, .binary⟩

def farm : Model Int64 Int64 := ⟨[siloVariable, barnVariable], [], ⟨.zero, true, none⟩⟩

def harvest : Solution Int64 Int64 :=
  .solved .feasible (OrderedMap.ofList [(siloVariable, 7), (barnVariable, 1)]) .one none

def crowd : Response where
  isFeasible := true
  isOptimal := true
  status := some "optimalish"
  values := ⟨[("attic", none), ("barn", some .one), ("zinc", none)]⟩

theorem farm_built : farm.Built := by
  have hsilo : siloVariable.interval.Built := .of_le (by decide) (Double.isNaN_ofInt _) (Double.isNaN_ofInt _)
  have hvariables : Draft.Built (S := Int64) (C := Int64) ⟨farm.variables, []⟩ :=
    (Draft.Built.empty.append hsilo (by decide)).append .binary (by decide)
  exact .complete hvariables .zero

theorem solution_comes_back_farm : farm.Built ∧
    (∀ v ∈ farm.variables, (harvest.values.get? v).isSome = true) ∧
    (∃ t, (Response.ofSolution harvest farm).toSolution farm = .ok t ∧ CameBack farm harvest t) ∧
    crowd.values.Sorted ∧ crowd.toSolution farm = .error (.unknownVariable "attic") := by
  obtain ⟨hback, hanswers⟩ := solution_comes_back (V := Int64) farm_built
  have hvalues : ∀ v ∈ farm.variables, (harvest.values.get? v).isSome = true := by decide +kernel
  have hsorted : crowd.values.Sorted := by
    rw [OrderedMap.Sorted]
    decide +kernel
  have hattic : FirstForeign farm crowd "attic" := ⟨by decide, by decide, by decide +kernel⟩
  exact ⟨farm_built, hvalues, hback harvest hvalues, hsorted,
    ((hanswers crowd hsorted).error _).mpr ⟨"attic", hattic, rfl⟩⟩

end Job

end LinOpt
