import LinOpt.Proofs.Lists
import LinOpt.Solution.Basic
import Mathlib.Data.List.Induction
import Mathlib.Data.List.Nodup
import Mathlib.Data.List.Perm.Basic

namespace LinOpt

namespace OrderedMap

variable {κ α : Type} [Ord κ]

theorem upsertEntry_perm {key : κ} {fresh : κ × α} {merge : κ × α → κ × α} {es : List (κ × α)}
    (h : ∀ e ∈ es, compare key e.1 ≠ .eq) : (upsertEntry key fresh merge es).Perm (fresh :: es) := by
  induction es with
  | nil => exact .refl _
  | cons e es ih =>
      obtain ⟨he, hes⟩ := List.forall_mem_cons.mp h
      rw [upsertEntry]
      cases hc : compare key e.1 with
      | lt => exact .refl _
      | eq => exact absurd hc he
      | gt => exact ((ih hes).cons e).trans (.swap fresh e es)

theorem entries_ofList_perm {pairs : List (κ × α)}
    (h : pairs.Pairwise fun a b => compare b.1 a.1 ≠ .eq) : (ofList pairs).entries.Perm pairs := by
  induction pairs using List.reverseRecOn with
  | nil => exact .refl _
  | append_singleton pairs p ih =>
      rw [List.pairwise_append] at h
      have hperm := ih h.1
      rw [ofList, List.foldl_append]
      refine (upsertEntry_perm fun e he => ?_).trans ?_
      · exact h.2.2 e (hperm.mem_iff.mp he) p List.mem_cons_self
      · exact (hperm.cons p).trans (List.perm_append_singleton p pairs).symm

def Sorted (m : OrderedMap κ α) : Prop := m.entries.Pairwise fun a b => compare a.1 b.1 = .lt

theorem forall_mem_upsertEntry {P : κ → Prop} {key : κ} {value : α} {combine : α → α → α}
    {es : List (κ × α)} (hkey : P key) (h : ∀ e ∈ es, P e.1) :
    ∀ e ∈ upsertEntry key (key, value) (fun e => (e.1, combine value e.2)) es, P e.1 := by
  induction es with
  | nil => exact List.forall_mem_singleton.mpr hkey
  | cons e es ih =>
      obtain ⟨he, hes⟩ := List.forall_mem_cons.mp h
      rw [upsertEntry]
      cases compare key e.1 with
      | lt => exact List.forall_mem_cons.mpr ⟨hkey, h⟩
      | eq => exact List.forall_mem_cons.mpr ⟨he, hes⟩
      | gt => exact List.forall_mem_cons.mpr ⟨he, ih hes⟩

variable [Std.TransOrd κ]

theorem Sorted.insertWith {m : OrderedMap κ α} (h : m.Sorted) (combine : α → α → α) (key : κ)
    (value : α) : (m.insertWith combine key value).Sorted := by
  rw [Sorted] at h ⊢
  rw [OrderedMap.insertWith]
  generalize m.entries = es at h ⊢
  induction es with
  | nil => exact List.pairwise_singleton _ _
  | cons e es ih =>
      obtain ⟨he, hes⟩ := List.pairwise_cons.mp h
      dsimp only
      rw [upsertEntry]
      cases hc : compare key e.1 with
      | lt =>
          refine List.pairwise_cons.mpr ⟨List.forall_mem_cons.mpr ⟨hc, fun d hd => ?_⟩, h⟩
          exact Std.TransCmp.lt_trans hc (he d hd)
      | eq => exact List.pairwise_cons.mpr ⟨he, hes⟩
      | gt =>
          have hlt : compare e.1 key = .lt := Std.OrientedCmp.gt_iff_lt.mp hc
          exact List.pairwise_cons.mpr ⟨forall_mem_upsertEntry (P := fun k => compare e.1 k = .lt) hlt he, ih hes⟩

end OrderedMap

variable {S V : Type}

theorem Variable.find?_name_eq_some {vs : List (Variable S)} (hnames : (vs.map (·.name)).Nodup)
    {name : String} {v : Variable S} :
    vs.find? (·.name == name) = some v ↔ v ∈ vs ∧ v.name = name := by
  constructor
  · intro h
    exact ⟨List.mem_of_find?_eq_some h, by simpa using List.find?_some h⟩
  · rintro ⟨hv, rfl⟩
    apply find?_eq_some_of_unique hv (by simp)
    intro w hw hwv
    exact List.inj_on_of_nodup_map hnames hw hv (by simpa using hwv)

theorem Values.names_zip (vs : List (Variable S)) (ns : List V) :
    (vs.zip ns).map (·.1.name) = (vs.map (·.name)).take ns.length := by
  induction vs generalizing ns with
  | nil => simp
  | cons v vs ih =>
      cases ns with
      | nil => rfl
      | cons n ns => simp [ih]

theorem Values.names_zip_nodup {vs : List (Variable S)} (hnames : (vs.map (·.name)).Nodup)
    (ns : List V) : ((vs.zip ns).map (·.1.name)).Nodup := by
  rw [names_zip]
  exact hnames.sublist (List.take_sublist _ _)

variable [Scalar S]

instance : Std.TransOrd (Variable S) :=
  inferInstanceAs (Std.TransCmp (compareLex (compareOn Variable.name) (compareLex
    (compareLex (compareOn fun v => Scalar.rank v.interval.lower)
      (compareOn fun v => Scalar.rank v.interval.upper))
    (compareOn fun v => v.kind.rank))))

theorem Variable.name_eq_of_compare {v w : Variable S} (h : Ord.compare v w = .eq) :
    v.name = w.name :=
  Std.LawfulEqOrd.eq_of_compare (Ordering.then_eq_eq.mp h).1

theorem Variable.same_self (v : Variable S) : v.same v = true :=
  beq_iff_eq.mpr (Std.ReflCmp.compare_self : Ord.compare v v = .eq)

namespace Values

variable {pairs : List (Variable S × V)}

theorem entries_perm (h : (pairs.map (·.1.name)).Nodup) :
    (OrderedMap.ofList pairs).entries.Perm pairs := by
  apply OrderedMap.entries_ofList_perm
  exact (List.pairwise_map.mp h).imp fun hne hc => hne (Variable.name_eq_of_compare hc).symm

theorem get?_ofList (h : (pairs.map (·.1.name)).Nodup) {v : Variable S} {n : V}
    (hv : (v, n) ∈ pairs) : (OrderedMap.ofList pairs).get? v = some n := by
  have hperm := entries_perm h
  have hunique (e : Variable S × V) (he : e ∈ (OrderedMap.ofList pairs).entries)
      (hc : (Ord.compare v e.1 == .eq) = true) : e = (v, n) := by
    have hname : v.name = e.1.name := Variable.name_eq_of_compare (beq_iff_eq.mp hc)
    exact List.inj_on_of_nodup_map h (hperm.mem_iff.mp he) hv hname.symm
  rw [OrderedMap.get?, find?_eq_some_of_unique (hperm.mem_iff.mpr hv) v.same_self hunique,
    Option.map_some]

/-- Values by name depend on the names only. Variables beyond the values have none. -/
theorem byName?_ofList_zip {vs : List (Variable S)} (hnames : (vs.map (·.name)).Nodup)
    (ns : List V) (name : String) : byName? (OrderedMap.ofList (vs.zip ns)) name =
      (((vs.map (·.name)).zip ns).find? (·.1 == name)).map (·.2) := by
  have hnodup := names_zip_nodup hnames ns
  have hperm := entries_perm hnodup
  rw [byName?, ← find?_eq_of_perm hperm.symm, List.zip_map_left, List.find?_map, Option.map_map]
  · rfl
  · intro a ha b hb hpa hpb
    exact List.inj_on_of_nodup_map hnodup ha hb ((eq_of_beq hpa).trans (eq_of_beq hpb).symm)

theorem exists_assignment [Inhabited V] {vs : List (Variable S)} {ns : List V}
    (hnames : (vs.map (·.name)).Nodup) (hlen : ns.length = vs.length) :
    ∃ f : Variable S → V, vs.map f = ns ∧
      ∀ v ∈ vs, (OrderedMap.ofList (vs.zip ns)).get? v = some (f v) := by
  have hnodup := names_zip_nodup hnames ns
  have hget (i : Nat) (hi : i < vs.length) (hi' : i < ns.length) :
      (OrderedMap.ofList (vs.zip ns)).get? vs[i] = some ns[i] :=
    get?_ofList hnodup (List.mem_iff_getElem.mpr ⟨i, by rw [List.length_zip]; omega, List.getElem_zip⟩)
  refine ⟨fun v => ((OrderedMap.ofList (vs.zip ns)).get? v).getD default, ?_, ?_⟩
  · apply List.ext_getElem (by rw [List.length_map, hlen])
    intro i hi hi'
    rw [List.getElem_map, hget i (hlen ▸ hi') hi', Option.getD_some]
  · intro v hv
    obtain ⟨i, hi, rfl⟩ := List.getElem_of_mem hv
    simp only [hget i hi (hlen ▸ hi), Option.getD_some]

end Values

end LinOpt
