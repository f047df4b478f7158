import LinOpt.Proofs.Model.OrderedMap

namespace LinOpt

namespace OrderedMap

variable {κ α : Type} [Ord κ]

theorem get?_cons (e : κ × α) (es : List (κ × α)) (k : κ) :
    (OrderedMap.mk (e :: es)).get? k =
      if compare k e.1 = .eq then some e.2 else (OrderedMap.mk es).get? k := by
  by_cases h : compare k e.1 = .eq
  · simp [get?, h]
  · simp [get?, h]

theorem get?_eq_none {es : List (κ × α)} {k : κ} (h : ∀ e ∈ es, compare k e.1 ≠ .eq) :
    (OrderedMap.mk es).get? k = none := by
  rw [get?, Option.map_eq_none_iff, List.find?_eq_none]
  intro e he heq
  exact h e he (beq_iff_eq.mp heq)

theorem isSome_get? {m : OrderedMap κ α} {k : κ} :
    (m.get? k).isSome = true ↔ ∃ key ∈ m.keys, compare k key = .eq := by
  simp [get?, keys]

variable [Std.TransOrd κ]

theorem ne_eq_of_lt {a b c : κ} (h : compare a b = .lt) (hc : compare c a = .eq) :
    compare c b ≠ .eq := by
  rw [Std.TransCmp.congr_left hc, h]
  decide

theorem get?_of_forall_lt {es : List (κ × α)} {k key : κ} (h : ∀ e ∈ es, compare key e.1 = .lt)
    (hk : compare k key = .eq) : (OrderedMap.mk es).get? k = none :=
  get?_eq_none fun e he => ne_eq_of_lt (h e he) hk

theorem get?_head (e : κ × α) (es : List (κ × α)) :
    (OrderedMap.mk (e :: es)).get? e.1 = some e.2 := by
  rw [get?_cons, if_pos Std.ReflCmp.compare_self]

theorem get?_congr (m : OrderedMap κ α) {k l : κ} (h : compare k l = .eq) : m.get? k = m.get? l := by
  rw [get?, get?]
  simp only [Std.TransCmp.congr_left h]

theorem get?_insert (m : OrderedMap κ α) (key : κ) (value : α) (k : κ) :
    (m.insert key value).get? k = if compare k key = .eq then some value else m.get? k := by
  obtain ⟨es⟩ := m
  rw [OrderedMap.insert]
  dsimp only
  induction es with
  | nil =>
      rw [upsertEntry, get?_cons]
  | cons e es ih =>
      rw [upsertEntry]
      cases hc : compare key e.1 with
      | lt => exact get?_cons _ _ k
      | eq =>
          have hkey : compare k key = .eq ↔ compare k e.1 = .eq :=
            ⟨fun h => Std.TransCmp.eq_trans h hc, fun h => Std.TransCmp.eq_trans h (Std.OrientedCmp.eq_symm hc)⟩
          dsimp only
          rw [get?_cons, get?_cons]
          simp only [hkey]
          split <;> rfl
      | gt =>
          dsimp only
          rw [get?_cons, get?_cons, ih]
          by_cases hk : compare k e.1 = .eq
          · have hkey := ne_eq_of_lt (Std.OrientedCmp.gt_iff_lt.mp hc) hk
            rw [if_pos hk, if_neg hkey, if_pos hk]
          · rw [if_neg hk, if_neg hk]

theorem get?_ofList (pairs : List (κ × α)) (k : κ) : (ofList pairs).get? k =
    (pairs.reverse.find? fun p => compare k p.1 == .eq).map (·.2) := by
  induction pairs using List.reverseRecOn with
  | nil => rfl
  | append_singleton pairs p ih =>
      rw [ofList, List.foldl_append, ← ofList, List.reverse_append]
      refine (get?_insert _ p.1 p.2 k).trans ?_
      rw [ih]
      by_cases hk : compare k p.1 = .eq
      · simp [hk]
      · simp [hk]

theorem get?_ofList_map {β : Type} (f : α → β) (pairs : List (κ × α)) (k : κ) :
    (ofList (pairs.map (Prod.map id f))).get? k = ((ofList pairs).get? k).map f := by
  rw [get?_ofList, get?_ofList, ← List.map_reverse, List.find?_map, Option.map_map, Option.map_map]
  rfl

theorem mem_of_get?_ofList {pairs : List (κ × α)} {k : κ} {a : α} (h : (ofList pairs).get? k = some a) :
    a ∈ pairs.map (·.2) := by
  rw [get?_ofList] at h
  obtain ⟨p, hp, rfl⟩ := Option.map_eq_some_iff.mp h
  exact List.mem_map_of_mem (List.mem_reverse.mp (List.mem_of_find?_eq_some hp))

theorem isSome_get?_ofList {pairs : List (κ × α)} {k : κ} (h : k ∈ pairs.map (·.1)) :
    ((ofList pairs).get? k).isSome = true := by
  obtain ⟨p, hp, rfl⟩ := List.mem_map.mp h
  rw [get?_ofList, Option.isSome_map, List.find?_isSome]
  exact ⟨p, List.mem_reverse.mpr hp, beq_iff_eq.mpr Std.ReflCmp.compare_self⟩

namespace Sorted

theorem get?_insertWith {m : OrderedMap κ α} (h : m.Sorted) (combine : α → α → α) (key : κ)
    (value : α) (k : κ) : (m.insertWith combine key value).get? k =
      if compare k key = .eq then Option.merge combine (some value) (m.get? k) else m.get? k := by
  obtain ⟨es⟩ := m
  rw [OrderedMap.insertWith]
  induction es with
  | nil =>
      rw [upsertEntry, get?_cons]
      rfl
  | cons e es ih =>
      obtain ⟨he, hes⟩ := List.pairwise_cons.mp h
      dsimp only
      rw [upsertEntry]
      cases hc : compare key e.1 with
      | lt =>
          have habove : ∀ d ∈ e :: es, compare key d.1 = .lt :=
            List.forall_mem_cons.mpr ⟨hc, fun d hd => Std.TransCmp.lt_trans hc (he d hd)⟩
          dsimp only
          rw [get?_cons]
          split
          case isTrue hk =>
            rw [get?_of_forall_lt habove hk]
            rfl
          case isFalse => rfl
      | eq =>
          dsimp only
          rw [get?_cons, get?_cons]
          by_cases hk : compare k e.1 = .eq
          · have hkey : compare k key = .eq := Std.TransCmp.eq_trans hk (Std.OrientedCmp.eq_symm hc)
            rw [if_pos hk, if_pos hkey, if_pos hk]
            rfl
          · have hkey : ¬ compare k key = .eq := fun hkey => hk (Std.TransCmp.eq_trans hkey hc)
            rw [if_neg hk, if_neg hkey, if_neg hk]
      | gt =>
          dsimp only
          rw [get?_cons, get?_cons, ih hes]
          by_cases hk : compare k e.1 = .eq
          · have hkey := ne_eq_of_lt (Std.OrientedCmp.gt_iff_lt.mp hc) hk
            rw [if_pos hk, if_neg hkey, if_pos hk]
          · rw [if_neg hk, if_neg hk]

theorem filter_entries {m : OrderedMap κ α} (h : m.Sorted) (k : κ) :
    (m.entries.filter fun e => compare k e.1 == .eq).map (·.2) = (m.get? k).toList := by
  obtain ⟨es⟩ := m
  dsimp only
  induction es with
  | nil => rfl
  | cons e es ih =>
      obtain ⟨he, hes⟩ := List.pairwise_cons.mp h
      rw [get?_cons, List.filter_cons]
      by_cases hk : compare k e.1 = .eq
      · rw [if_pos (beq_iff_eq.mpr hk), if_pos hk, List.map_cons, ih hes, get?_of_forall_lt he hk]
        rfl
      · rw [if_neg (mt beq_iff_eq.mp hk), if_neg hk, ih hes]

theorem get?_of_lt {d : κ × α} {ds : List (κ × α)} (h : (OrderedMap.mk (d :: ds)).Sorted) {k : κ}
    (hk : compare k d.1 = .lt) : (OrderedMap.mk (d :: ds)).get? k = none := by
  have habove : ∀ e ∈ d :: ds, compare k e.1 = .lt :=
    List.forall_mem_cons.mpr ⟨hk, fun e he =>
      Std.TransCmp.lt_trans hk ((List.pairwise_cons.mp h).1 e he)⟩
  exact get?_of_forall_lt habove Std.ReflCmp.compare_self

/-- Maps in which every key finds the same have entries that agree one by one. -/
theorem ext {m n : OrderedMap κ α} (hm : m.Sorted) (hn : n.Sorted) (h : ∀ k, m.get? k = n.get? k) :
    List.Forall₂ (fun a b => compare a.1 b.1 = .eq ∧ a.2 = b.2) m.entries n.entries := by
  obtain ⟨es⟩ := m
  obtain ⟨ds⟩ := n
  dsimp only
  induction es generalizing ds with
  | nil =>
      cases ds with
      | nil => exact .nil
      | cons d ds => cases (h d.1).trans (get?_head d ds)
  | cons e es ih =>
      cases ds with
      | nil => cases (get?_head e es).symm.trans (h e.1)
      | cons d ds =>
          -- the first key of either map is found in the other, so neither is below the other
          have hed : compare e.1 d.1 = .eq := by
            cases hc : compare e.1 d.1 with
            | eq => rfl
            | lt => cases (get?_head e es).symm.trans ((h e.1).trans (hn.get?_of_lt hc))
            | gt =>
                have hlt : compare d.1 e.1 = .lt := Std.OrientedCmp.gt_iff_lt.mp hc
                cases (hm.get?_of_lt hlt).symm.trans ((h d.1).trans (get?_head d ds))
          have hvalue := h e.1
          rw [get?_head, get?_cons, if_pos hed] at hvalue
          obtain ⟨he, hes⟩ := List.pairwise_cons.mp hm
          obtain ⟨hd, hds⟩ := List.pairwise_cons.mp hn
          refine .cons ⟨hed, Option.some.inj hvalue⟩ (ih hes ds hds fun k => ?_)
          by_cases hk : compare k e.1 = .eq
          · rw [get?_of_forall_lt he hk, get?_of_forall_lt hd (Std.TransCmp.eq_trans hk hed)]
          · have hk' : ¬ compare k d.1 = .eq := fun hk' =>
              hk (Std.TransCmp.eq_trans hk' (Std.OrientedCmp.eq_symm hed))
            have hrest := h k
            rwa [get?_cons, get?_cons, if_neg hk, if_neg hk'] at hrest

end Sorted

end OrderedMap

namespace Values

variable {S V : Type} [Scalar S] {vs : List (Variable S)}

theorem size_ofList_zip (hnames : (vs.map (·.name)).Nodup) (ns : List V) :
    (OrderedMap.ofList (vs.zip ns)).size = min vs.length ns.length := by
  rw [OrderedMap.size, (entries_perm (names_zip_nodup hnames ns)).length_eq, List.length_zip]

theorem get?_ofList_zip (hnames : (vs.map (·.name)).Nodup) (ns : List V) {i : Nat} {v : Variable S}
    (hv : vs[i]? = some v) : (OrderedMap.ofList (vs.zip ns)).get? v = ns[i]? := by
  have hnodup := names_zip_nodup hnames ns
  cases hn : ns[i]? with
  | some n =>
      exact get?_ofList hnodup (List.mem_of_getElem? (List.getElem?_zip_eq_some.mpr ⟨hv, hn⟩))
  | none =>
      apply OrderedMap.get?_eq_none
      intro e he hve
      obtain ⟨j, hj⟩ := List.getElem?_of_mem ((entries_perm hnodup).mem_iff.mp he)
      obtain ⟨hvj, hnj⟩ := List.getElem?_zip_eq_some.mp hj
      have hij := position_eq_of_nodup_map hnames hv hvj (Variable.name_eq_of_compare hve)
      rw [← hij, hn] at hnj
      cases hnj

theorem byName?_of_position (hnames : (vs.map (·.name)).Nodup) (ns : List V) {i : Nat} {name : String}
    (hname : (vs.map (·.name))[i]? = some name) :
    byName? (OrderedMap.ofList (vs.zip ns)) name = ns[i]? := by
  rw [byName?_ofList_zip hnames]
  exact find?_zip_of_nodup hnames ns hname

end Values

end LinOpt
