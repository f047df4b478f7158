import Mathlib.Data.List.Basic

namespace LinOpt

/-- An access out of bounds ends a computation without a result, which is not the same as a fault
that it reports. -/
abbrev Checked (ε α : Type) := ExceptT ε Option α

variable {ε α β γ δ : Type}

def access (o : Option α) : Checked ε α := ExceptT.lift o

/-- No access is out of bounds, and what comes out is the same fault, or related results. -/
inductive Agree (R : α → β → Prop) : Checked ε α → Except ε β → Prop
  | ok {a : α} {b : β} (h : R a b) : Agree R (pure a) (.ok b)
  | error (e : ε) : Agree R (throw e) (.error e)

variable {R : α → β → Prop} {S : γ → δ → Prop} {x : Checked ε α} {y : Except ε β}

theorem Agree.bind {f : α → Checked ε γ} {g : β → Except ε δ} (h : Agree R x y)
    (hfg : ∀ a b, R a b → Agree S (f a) (g b)) : Agree S (x >>= f) (y >>= g) := by
  cases h with
  | ok h =>
      rw [pure_bind]
      exact hfg _ _ h
  | error e => exact .error e

theorem access_some (a : α) : (access (some a) : Checked ε α) = pure a := rfl

theorem Agree.lift (y : Except ε β) : Agree Eq (liftM y : Checked ε β) y := by
  cases y with
  | ok b => exact .ok rfl
  | error e => exact .error e

theorem Agree.imp {R' : α → β → Prop} (h : Agree R x y) (hR : ∀ a b, y = .ok b → R a b → R' a b) :
    Agree R' x y := by
  cases h with
  | ok h => exact .ok (hR _ _ rfl h)
  | error e => exact .error e

theorem Agree.foldlM {ι κ : Type} {f : α → κ → Checked ε α} {g : β → ι → Except ε β} (item : ι → κ)
    {is : List ι} (hfg : ∀ i ∈ is, ∀ a b, R a b → Agree R (f a (item i)) (g b i)) {a : α} {b : β}
    (hab : R a b) : Agree R ((is.map item).foldlM f a) (is.foldlM g b) := by
  induction is generalizing a b with
  | nil => exact .ok hab
  | cons i is ih =>
      obtain ⟨hi, his⟩ := List.forall_mem_cons.mp hfg
      rw [List.map_cons, List.foldlM_cons, List.foldlM_cons]
      exact (hi a b hab).bind fun _ _ h => ih his h

theorem Agree.mapM {ι : Type} {f : ι → Checked ε β} {g : ι → Except ε β} {is : List ι}
    (hfg : ∀ i ∈ is, Agree Eq (f i) (g i)) : Agree Eq (is.mapM f) (is.mapM g) := by
  induction is with
  | nil => exact .ok rfl
  | cons i is ih =>
      obtain ⟨hi, his⟩ := List.forall_mem_cons.mp hfg
      rw [List.mapM_cons, List.mapM_cons]
      refine hi.bind fun x y hxy => (ih his).bind fun xs ys hxys => ?_
      rw [hxy, hxys]
      exact .ok rfl

theorem Agree.eq_some {x : Checked ε β} (h : Agree Eq x y) : x = some y := by
  cases h with
  | ok h =>
      rw [h]
      rfl
  | error e => rfl

def modifyAt (f : α → α) (i : Nat) (xs : List α) : Option (List α) :=
  xs[i]?.map fun a => xs.set i (f a)

theorem modifyAt_eq {f : α → α} {i : Nat} {xs : List α} (h : i < xs.length) :
    modifyAt f i xs = some (xs.set i (f xs[i])) := by
  rw [modifyAt, List.getElem?_eq_getElem h]
  rfl

/-- Every item goes through the changes made at its position, in their order. -/
theorem foldlM_modifyAt {ι : Type} (position : ι → Nat) (change : ι → α → α) {is : List ι}
    {xs : List α} (h : ∀ i ∈ is, position i < xs.length) :
    is.foldlM (fun xs i => modifyAt (change i) (position i) xs) xs = some
      (xs.mapIdx fun n a => (is.filter (position · == n)).foldl (fun a i => change i a) a) := by
  induction is generalizing xs with
  | nil => exact congrArg some (List.ext_getElem (by simp) (by simp))
  | cons i is ih =>
      obtain ⟨hi, his⟩ := List.forall_mem_cons.mp h
      rw [List.foldlM_cons, modifyAt_eq hi, Option.bind_eq_bind, Option.bind_some, ih (by simpa using his)]
      congr 1
      apply List.ext_getElem (by simp)
      intro n hn hn'
      by_cases hni : position i = n
      · subst hni
        simp
      · simp [hni, List.getElem_set_ne hni]

end LinOpt
