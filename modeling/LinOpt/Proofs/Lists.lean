import Mathlib.Data.List.Forall2

namespace LinOpt

variable {α β : Type}

theorem forall_of_forall₂ {R : α → β → Prop} {P : β → Prop} {xs : List α} {ys : List β}
    (h : List.Forall₂ R xs ys) (hP : ∀ x y, R x y → P y) : ∀ y ∈ ys, P y := by
  induction h with
  | nil => exact List.forall_mem_nil P
  | cons hxy _ ih => exact List.forall_mem_cons.mpr ⟨hP _ _ hxy, ih⟩

theorem exists_mem_of_forall₂ {R : α → β → Prop} {xs : List α} {ys : List β}
    (h : List.Forall₂ R xs ys) {x : α} (hx : x ∈ xs) : ∃ y ∈ ys, R x y := by
  obtain ⟨i, hi, rfl⟩ := List.getElem_of_mem hx
  have hi' : i < ys.length := h.length_eq ▸ hi
  exact ⟨ys[i], List.getElem_mem hi', h.get hi hi'⟩

theorem forall_iff_of_forall₂ {P : α → Prop} {Q : β → Prop} {xs : List α} {ys : List β}
    (h : List.Forall₂ (fun x y => P x ↔ Q y) xs ys) : (∀ x ∈ xs, P x) ↔ ∀ y ∈ ys, Q y := by
  induction h with
  | nil => exact iff_of_true (List.forall_mem_nil P) (List.forall_mem_nil Q)
  | cons hxy _ ih => rw [List.forall_mem_cons, List.forall_mem_cons, hxy, ih]

theorem exists_forall₂ {R : α → β → Prop} {xs : List α} (h : ∀ x ∈ xs, ∃ y, R x y) :
    ∃ ys, List.Forall₂ R xs ys := by
  induction xs with
  | nil => exact ⟨[], .nil⟩
  | cons x xs ih =>
      obtain ⟨⟨y, hy⟩, hxs⟩ := List.forall_mem_cons.mp h
      obtain ⟨ys, hys⟩ := ih hxs
      exact ⟨y :: ys, .cons hy hys⟩

/-- What holds between any two members in order holds, as a relation of their partners, between
those. -/
theorem pairwise_of_forall₂ {R : α → β → Prop} {P : α → α → Prop} {Q : β → β → Prop} {xs : List α}
    {ys : List β} (h : List.Forall₂ R xs ys) (hP : xs.Pairwise P)
    (hQ : ∀ a b x y, R a x → R b y → P a b → Q x y) : ys.Pairwise Q := by
  induction h with
  | nil => exact .nil
  | cons hax hrest ih =>
      obtain ⟨ha, hxs⟩ := List.pairwise_cons.mp hP
      refine List.pairwise_cons.mpr ⟨?_, ih hxs⟩
      exact forall_of_forall₂ ((List.forall₂_and_left _ _).mpr ⟨ha, hrest⟩) fun b y h =>
        hQ _ b _ y hax h.2 h.1

theorem isEqv_of_forall₂ {R : α → α → Prop} {eqv : α → α → Bool} {xs ys : List α}
    (h : List.Forall₂ R xs ys) (heqv : ∀ x y, R x y → eqv x y = true) : xs.isEqv ys eqv = true := by
  induction h with
  | nil => rfl
  | cons hxy _ ih => rw [List.isEqv, heqv _ _ hxy, ih, Bool.true_and]

theorem map_find?_eq_of_forall₂ {γ : Type} {R : α → β → Prop} {p : α → Bool} {q : β → Bool} {f : α → γ}
    {g : β → γ} {xs : List α} {ys : List β} (h : List.Forall₂ R xs ys)
    (hR : ∀ x y, R x y → p x = q y ∧ f x = g y) : (xs.find? p).map f = (ys.find? q).map g := by
  induction h with
  | nil => rfl
  | @cons x y xs ys hxy _ ih =>
      obtain ⟨hp, hf⟩ := hR x y hxy
      rw [List.find?_cons, List.find?_cons, hp]
      cases q y with
      | true => exact congrArg some hf
      | false => exact ih

theorem find?_eq_some_of_unique {p : α → Bool} {l : List α} {a : α} (ha : a ∈ l) (hp : p a = true)
    (hunique : ∀ b ∈ l, p b = true → b = a) : l.find? p = some a := by
  cases h : l.find? p with
  | none => exact absurd hp (List.find?_eq_none.mp h a ha)
  | some b => rw [hunique b (List.mem_of_find?_eq_some h) (List.find?_some h)]

theorem find?_eq_of_perm {p : α → Bool} {l l' : List α} (hperm : l.Perm l')
    (hunique : ∀ a ∈ l, ∀ b ∈ l, p a = true → p b = true → a = b) : l.find? p = l'.find? p := by
  cases h : l.find? p with
  | none =>
      refine (List.find?_eq_none.mpr fun a ha => ?_).symm
      exact List.find?_eq_none.mp h a (hperm.mem_iff.mpr ha)
  | some a =>
      have ha := List.mem_of_find?_eq_some h
      have hp := List.find?_some h
      refine (find?_eq_some_of_unique (hperm.mem_iff.mp ha) hp fun b hb hpb => ?_).symm
      exact hunique b (hperm.mem_iff.mpr hb) a ha hpb hp

theorem map_set_of_eq {f : α → β} {xs : List α} {i : Nat} {a : α} (hi : i < xs.length)
    (h : f a = f xs[i]) : (xs.set i a).map f = xs.map f := by
  apply List.ext_getElem (by simp)
  intro j hj hj'
  rw [List.getElem_map, List.getElem_map, List.getElem_set]
  split
  case isTrue hij =>
    subst hij
    exact h
  case isFalse => rfl

theorem position_eq_of_nodup_map {f : α → β} {xs : List α} (h : (xs.map f).Nodup) {i j : Nat} {a b : α}
    (hi : xs[i]? = some a) (hj : xs[j]? = some b) (hab : f a = f b) : i = j := by
  have hlt : i < (xs.map f).length := by simpa using (List.getElem?_eq_some_iff.mp hi).1
  apply (List.getElem?_inj hlt h).mp
  simp [hi, hj, hab]

theorem find?_zip_of_nodup [DecidableEq α] {keys : List α} (h : keys.Nodup) (values : List β) {i : Nat}
    {key : α} (hi : keys[i]? = some key) :
    ((keys.zip values).find? (·.1 == key)).map (·.2) = values[i]? := by
  induction keys generalizing i values with
  | nil => simp at hi
  | cons k keys ih =>
      obtain ⟨hk, hkeys⟩ := List.nodup_cons.mp h
      cases values with
      | nil => simp
      | cons value values =>
          cases i with
          | zero =>
              obtain rfl : k = key := by simpa using hi
              simp
          | succ i =>
              have hi' : keys[i]? = some key := by simpa using hi
              have hne : k ≠ key := by
                rintro rfl
                exact hk (List.mem_of_getElem? hi')
              simpa [hne] using ih hkeys values hi'

section

variable [BEq α] [LawfulBEq α]

theorem eraseDups_snoc_of_mem {a : α} {l : List α} (h : a ∈ l) :
    (l ++ [a]).eraseDups = l.eraseDups := by
  simp [List.eraseDups_append, List.cons_removeAll, List.nil_removeAll, h]

theorem eraseDups_snoc_of_not_mem {a : α} {l : List α} (h : a ∉ l) :
    (l ++ [a]).eraseDups = l.eraseDups ++ [a] := by
  simp [List.eraseDups_append, List.cons_removeAll, List.nil_removeAll, List.eraseDups_cons, h]

end

end LinOpt
