import LinOpt.Proofs.Program.OfModel
import Mathlib.Data.List.Perm.Subperm
import Mathlib.Order.Bounds.Defs

namespace LinOpt.RowNames

theorem numbered_injective (b : String) : Function.Injective (numbered b) := by
  intro j k h
  have hchars := congrArg String.toList h
  simp only [numbered, String.toList_append] at hchars
  have hdigits : Nat.toDigits 10 j = Nat.toDigits 10 k := by
    simpa [Nat.toString_eq_ofList_toDigits] using List.append_cancel_left hchars
  calc j = Nat.ofDigitChars 10 (Nat.toDigits 10 j) 0 := Nat.ofDigitChars_ten_toDigits.symm
    _ = Nat.ofDigitChars 10 (Nat.toDigits 10 k) 0 := by rw [hdigits]
    _ = k := Nat.ofDigitChars_ten_toDigits

/-- Fewer names than numbered forms cannot use all of these. -/
theorem exists_free (b : String) (used : List String) :
    ∃ k ≤ used.length, numbered b (k + 1) ∉ used := by
  by_contra hnone
  have hused : ∀ k ≤ used.length, numbered b (k + 1) ∈ used := by simpa using hnone
  have hinjective : Function.Injective fun k => numbered b (k + 1) := by
    intro j k h
    exact Nat.succ.inj (numbered_injective b h)
  have hnodup : ((List.range (used.length + 1)).map fun k => numbered b (k + 1)).Nodup :=
    List.nodup_range.map hinjective
  have hsubset : (List.range (used.length + 1)).map (fun k => numbered b (k + 1)) ⊆ used := by
    intro s hs
    obtain ⟨k, hk, rfl⟩ := List.mem_map.mp hs
    exact hused k (Nat.le_of_lt_succ (List.mem_range.mp hk))
  have hlength := (List.subperm_of_subset hnodup hsubset).length_le
  rw [List.length_map, List.length_range] at hlength
  omega

theorem firstFree_spec (b : String) (used : List String) :
    ∃ k, firstFree b used = numbered b (k + 1) ∧ numbered b (k + 1) ∉ used ∧
      ∀ j < k, numbered b (j + 1) ∈ used := by
  rw [firstFree]
  cases hfind : (List.range (used.length + 1)).find? fun k => !used.contains (numbered b (k + 1)) with
  | none =>
      obtain ⟨k, hk, hfree⟩ := exists_free b used
      have hall := List.find?_eq_none.mp hfind k (List.mem_range.mpr (Nat.lt_succ_of_le hk))
      exact absurd (by simpa using hall) hfree
  | some k =>
      obtain ⟨hfree, -, hpassed⟩ := List.find?_range_eq_some.mp hfind
      exact ⟨k, rfl, by simpa using hfree, fun j hj => by simpa using hpassed j hj⟩

def form (b : String) : Nat → String
  | 0 => b
  | k + 1 => numbered b (k + 1)

/-- A form that is passed over. An earlier row has it, or it was given to some row; of the given
names only the row's own one may be used. -/
def Blocked (given taken : List String) (i : Nat) (name : Option String) (k : Nat) : Prop :=
  form (base i name) k ∈ taken ∨ (0 < k ∨ name = none) ∧ form (base i name) k ∈ given

structure StopsAt (given taken : List String) (i : Nat) (name : Option String) (k : Nat) : Prop where
  free : ¬ Blocked given taken i name k
  passed : ∀ j < k, Blocked given taken i name j

variable {given taken : List String} {i : Nat} {name : Option String}

theorem blocked_succ {k : Nat} : Blocked given taken i name (k + 1) ↔
    numbered (base i name) (k + 1) ∈ given ++ taken := by
  rw [Blocked, form, List.mem_append]
  simp [or_comm]

theorem blocked_zero : Blocked given taken i name 0 ↔
    (if name.isSome then taken else given ++ taken).contains (base i name) = true := by
  cases name <;> simp [Blocked, form, or_comm]

theorem next_stops (given taken : List String) (i : Nat) (name : Option String) :
    ∃ k, StopsAt given taken i name k ∧ next given taken i name = form (base i name) k := by
  rw [next]
  by_cases hzero : Blocked given taken i name 0
  · obtain ⟨k, hname, hfree, hpassed⟩ := firstFree_spec (base i name) (given ++ taken)
    rw [if_pos (blocked_zero.mp hzero), hname]
    refine ⟨k + 1, ⟨mt blocked_succ.mp hfree, fun j hj => ?_⟩, rfl⟩
    cases j with
    | zero => exact hzero
    | succ j => exact blocked_succ.mpr (hpassed j (Nat.lt_of_succ_lt_succ hj))
  · rw [if_neg (mt blocked_zero.mpr hzero)]
    exact ⟨0, ⟨hzero, nofun⟩, rfl⟩

theorem StopsAt.eq_zero {k : Nat} (h : StopsAt given taken i name k)
    (hzero : ¬ Blocked given taken i name 0) : k = 0 := by
  by_contra hk
  exact hzero (h.passed 0 (Nat.pos_of_ne_zero hk))

theorem next_of_not_blocked (h : ¬ Blocked given taken i name 0) :
    next given taken i name = base i name := by
  obtain ⟨k, hstops, hnext⟩ := next_stops given taken i name
  rw [hnext, hstops.eq_zero h]
  rfl

theorem next_not_mem_taken : next given taken i name ∉ taken := by
  obtain ⟨k, hstops, hnext⟩ := next_stops given taken i name
  rw [hnext]
  exact fun hmem => hstops.free (.inl hmem)

theorem eq_of_next_mem_given (h : next given taken i name ∈ given) :
    name = some (next given taken i name) := by
  obtain ⟨k, hstops, hnext⟩ := next_stops given taken i name
  rw [hnext] at h ⊢
  have hfirst : ¬ (0 < k ∨ name = none) := fun hk => hstops.free (.inr ⟨hk, h⟩)
  obtain ⟨hk, hname⟩ := not_or.mp hfirst
  obtain ⟨x, rfl⟩ := Option.ne_none_iff_exists'.mp hname
  rw [Nat.eq_zero_of_not_pos hk]
  rfl

theorem next_of_given {x : String} (h : x ∉ taken) : next given taken i (some x) = x := by
  apply next_of_not_blocked
  rintro (hmem | ⟨hk | hnone, -⟩)
  · exact h hmem
  · exact Nat.lt_irrefl 0 hk
  · cases hnone

theorem next_of_blocked (h : Blocked given taken i name 0) :
    ∃ k, IsLeast {k | 1 ≤ k ∧ numbered (base i name) k ∉ given ∧ numbered (base i name) k ∉ taken} k ∧
      next given taken i name = numbered (base i name) k := by
  obtain ⟨k, hstops, hnext⟩ := next_stops given taken i name
  cases k with
  | zero => exact absurd h hstops.free
  | succ k =>
      have hfree := mt blocked_succ.mpr hstops.free
      rw [List.mem_append, not_or] at hfree
      refine ⟨k + 1, ⟨⟨Nat.le_add_left 1 k, hfree⟩, fun j ⟨hj, hgiven, htaken⟩ => ?_⟩, hnext⟩
      by_contra hlt
      obtain ⟨l, rfl⟩ := Nat.exists_eq_add_of_le' hj
      rcases List.mem_append.mp (blocked_succ.mp (hstops.passed (l + 1) (Nat.not_le.mp hlt))) with h | h
      · exact hgiven h
      · exact htaken h

theorem assign_fresh (given : List String) (i : Nat) (taken : List String)
    (names : List (Option String)) :
    (assign given i taken names).Nodup ∧ ∀ s ∈ assign given i taken names, s ∉ taken := by
  induction names generalizing i taken with
  | nil => exact ⟨List.nodup_nil, List.forall_mem_nil _⟩
  | cons name names ih =>
      obtain ⟨hnodup, hfresh⟩ := ih (i + 1) (next given taken i name :: taken)
      rw [assign]
      refine ⟨List.nodup_cons.mpr ⟨fun hmem => ?_, hnodup⟩,
        List.forall_mem_cons.mpr ⟨next_not_mem_taken, fun s hs hmem => ?_⟩⟩
      · exact hfresh _ hmem List.mem_cons_self
      · exact hfresh s hs (List.mem_cons_of_mem _ hmem)

theorem unique_nodup (names : List (Option String)) : (unique names).Nodup :=
  (assign_fresh _ 0 [] names).1

theorem getElem?_assign (given : List String) (i : Nat) (taken : List String)
    (names : List (Option String)) (j : Nat) :
    (assign given i taken names)[j]? = names[j]?.map
      (next given (((assign given i taken names).take j).reverse ++ taken) (i + j)) := by
  induction names generalizing i taken j with
  | nil => rfl
  | cons name names ih =>
      rw [assign]
      cases j with
      | zero => rfl
      | succ j =>
          rw [List.getElem?_cons_succ, List.getElem?_cons_succ, ih, List.take_succ_cons,
            List.reverse_cons, List.append_assoc, Nat.add_assoc, Nat.add_comm 1 j]
          rfl

variable {names : List (Option String)}

theorem getElem?_unique (names : List (Option String)) (i : Nat) : (unique names)[i]? =
    names[i]?.map (next (names.filterMap id) ((unique names).take i).reverse i) := by
  have h := getElem?_assign (names.filterMap id) 0 [] names i
  rwa [List.append_nil, Nat.zero_add] at h

theorem mem_given {x : String} : x ∈ names.filterMap id ↔ some x ∈ names := by
  simp

theorem mem_take_of_mem_take_unique {x : String} {i : Nat} (hx : x ∈ (unique names).take i)
    (hgiven : some x ∈ names) : some x ∈ names.take i := by
  obtain ⟨j, hj⟩ := List.mem_iff_getElem?.mp hx
  rw [List.getElem?_take, getElem?_unique] at hj
  split at hj
  case isTrue hlt =>
    obtain ⟨name, hname, rfl⟩ := Option.map_eq_some_iff.mp hj
    have heq := eq_of_next_mem_given (mem_given.mpr hgiven)
    rw [← heq]
    exact List.mem_iff_getElem?.mpr ⟨j, by rw [List.getElem?_take_of_lt hlt, hname]⟩
  case isFalse => cases hj

theorem mem_take_unique_of_mem_take {x : String} {i : Nat} (hx : some x ∈ names.take i) :
    x ∈ (unique names).take i := by
  obtain ⟨j, hj⟩ := List.mem_iff_getElem?.mp hx
  rw [List.getElem?_take] at hj
  split at hj
  case isTrue hlt =>
    by_cases htaken : x ∈ (unique names).take j
    · exact (List.take_prefix_take_left (Nat.le_of_lt hlt)).subset htaken
    · have hkeeps : (unique names)[j]? = some x := by
        rw [getElem?_unique, hj, Option.map_some, next_of_given (by simpa using htaken)]
      exact List.mem_iff_getElem?.mpr ⟨j, by rw [List.getElem?_take_of_lt hlt, hkeeps]⟩
  case isFalse => cases hj

/-- How the name of a row follows from the names that were given and those of the rows before it. -/
structure Settled (names : List (Option String)) (i : Nat) (name : Option String) (s : String) :
    Prop where
  stops : ∃ k, StopsAt (names.filterMap id) ((unique names).take i) i name k ∧
    s = form (base i name) k
  first : ∀ x, name = some x → name ∉ names.take i → s = x
  other : name = none ∨ name ∈ names.take i → some s ∉ names
  unnamed : name = none → some s!"c{i}" ∉ names → s!"c{i}" ∉ (unique names).take i → s = s!"c{i}"
  changed : (name = none ∧ (some s!"c{i}" ∈ names ∨ s!"c{i}" ∈ (unique names).take i)) ∨
      (name ≠ none ∧ name ∈ names.take i) →
    ∃ k, IsLeast {k | 1 ≤ k ∧ some (numbered (base i name) k) ∉ names ∧
        numbered (base i name) k ∉ (unique names).take i} k ∧ s = numbered (base i name) k

theorem settled_next (hname : names[i]? = some name) : Settled names i name
    (next (names.filterMap id) ((unique names).take i).reverse i name) := by
  have hblocked {k : Nat} : Blocked (names.filterMap id) ((unique names).take i).reverse i name k ↔
      Blocked (names.filterMap id) ((unique names).take i) i name k := by
    simp only [Blocked, List.mem_reverse]
  have hmem : name ∈ names := List.mem_of_getElem? hname
  constructor
  case stops =>
    obtain ⟨k, hstops, hnext⟩ := next_stops (names.filterMap id) ((unique names).take i).reverse i name
    exact ⟨k, ⟨mt hblocked.mpr hstops.free, fun j hj => hblocked.mp (hstops.passed j hj)⟩, hnext⟩
  case first =>
    rintro x rfl hfirst
    apply next_of_given
    rw [List.mem_reverse]
    exact fun hx => hfirst (mem_take_of_mem_take_unique hx hmem)
  case other =>
    intro hother hgiven
    have heq := eq_of_next_mem_given (mem_given.mpr hgiven)
    rcases hother with hnone | hearlier
    · rw [hnone] at heq
      cases heq
    · rw [heq] at hearlier
      exact next_not_mem_taken (List.mem_reverse.mpr (mem_take_unique_of_mem_take hearlier))
  case unnamed =>
    rintro rfl hgiven htaken
    apply next_of_not_blocked
    rw [hblocked]
    rintro (h | ⟨-, h⟩)
    · exact htaken h
    · exact hgiven (mem_given.mp h)
  case changed =>
    intro hchange
    have hzero : Blocked (names.filterMap id) ((unique names).take i).reverse i name 0 := by
      rw [hblocked]
      rcases hchange with ⟨rfl, hgiven | htaken⟩ | ⟨hsome, hearlier⟩
      · exact .inr ⟨.inr rfl, mem_given.mpr hgiven⟩
      · exact .inl htaken
      · obtain ⟨x, rfl⟩ := Option.ne_none_iff_exists'.mp hsome
        exact .inl (mem_take_unique_of_mem_take hearlier)
    simpa only [mem_given, List.mem_reverse] using next_of_blocked hzero

/-- The names of the rows are as many as there are rows, and distinct. For each row, trying one form
of its name after the other comes to an end. The first row with a given name keeps it, and every
other row gets a name that no row was given: its default name, if that is free, or else the form with
the least number that is free. -/
theorem unique_settled (names : List (Option String)) :
    (unique names).length = names.length ∧ (unique names).Nodup ∧
      ∀ i name, names[i]? = some name → ∃ s, (unique names)[i]? = some s ∧ Settled names i name s := by
  refine ⟨length_unique names, unique_nodup names, fun i name hname => ?_⟩
  refine ⟨_, ?_, settled_next hname⟩
  rw [getElem?_unique, hname, Option.map_some]

example : unique [some "cap", some "cap", none, some "c2", some "cap_1", none] =
    ["cap", "cap_2", "c2_1", "c2", "cap_1", "c5"] := by decide +kernel

end LinOpt.RowNames
