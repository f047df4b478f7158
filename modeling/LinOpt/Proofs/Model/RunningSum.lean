import LinOpt.Proofs.Model.Built
import LinOpt.Proofs.Model.Gathering

namespace LinOpt

namespace OrderedMap

variable {κ α : Type} [Ord κ]

theorem upsertEntry_of_forall_gt {key : κ} {fresh : κ × α} {merge : κ × α → κ × α} {es : List (κ × α)}
    (h : ∀ e ∈ es, compare key e.1 = .gt) : upsertEntry key fresh merge es = es ++ [fresh] := by
  induction es with
  | nil => rfl
  | cons e es ih =>
      obtain ⟨he, hes⟩ := List.forall_mem_cons.mp h
      simp [upsertEntry, he, ih hes]

end OrderedMap

/-- Each number is added to the left of the sum so far. There is no sum of nothing. -/
def runningSum {C : Type} [Add C] : List C → Option C
  | [] => none
  | c :: cs => some (cs.foldl (fun total d => d + total) c)

theorem runningSum_concat {C : Type} [Add C] (cs : List C) (c : C) :
    runningSum (cs ++ [c]) = Option.merge (· + ·) (some c) (runningSum cs) := by
  cases cs <;> simp [runningSum, Option.merge]

theorem isSome_runningSum {C : Type} [Add C] {cs : List C} :
    (runningSum cs).isSome = true ↔ cs ≠ [] := by
  cases cs <;> simp [runningSum]

namespace LinearSum

variable {S C : Type} [Scalar S] [Scalar C]

theorem ofTerms_concat (ts : List (Variable S × C)) (t : Variable S × C) :
    ofTerms (ts ++ [t]) = (ofTerms ts).addTerm t.1 t.2 := by
  simp [ofTerms, addTerms]

theorem built_ofTerms (ts : List (Variable S × C)) : (ofTerms ts).Built := by
  induction ts using List.reverseRecOn with
  | nil => exact .zero
  | append_singleton ts t ih =>
      rw [ofTerms_concat]
      exact ih.addTerm t.1 t.2

theorem forall_mem_ofTerms {P : Variable S → Prop} {ts : List (Variable S × C)}
    (h : ∀ t ∈ ts, P t.1) : ∀ e ∈ (ofTerms ts).terms.entries, P e.1 := by
  induction ts using List.reverseRecOn with
  | nil => exact List.forall_mem_nil _
  | append_singleton ts t ih =>
      obtain ⟨hts, ht⟩ := List.forall_mem_append.mp h
      rw [ofTerms_concat]
      exact OrderedMap.forall_mem_upsertEntry (ht t (List.mem_singleton_self t)) (ih hts)

theorem coefficient?_ofTerms (ts : List (Variable S × C)) (v : Variable S) :
    (ofTerms ts).coefficient? v = runningSum (coefficientsOf v ts) := by
  induction ts using List.reverseRecOn with
  | nil => rfl
  | append_singleton ts t ih =>
      have hsorted := (built_ofTerms ts).sorted
      rw [ofTerms_concat, coefficientsOf_append, coefficientsOf_singleton]
      refine (hsorted.get?_insertWith _ t.1 t.2 v).trans ?_
      split
      · rw [runningSum_concat, ← ih]
        rfl
      · rw [List.append_nil, ← ih]
        rfl

theorem entries_ofTerms {ts : List (Variable S × C)}
    (h : ts.Pairwise fun t u => Ord.compare t.1 u.1 = .lt) : (ofTerms ts).terms.entries = ts := by
  induction ts using List.reverseRecOn with
  | nil => rfl
  | append_singleton ts t ih =>
      obtain ⟨hts, -, habove⟩ := List.pairwise_append.mp h
      have hentries := ih hts
      have hgt : ∀ e ∈ (ofTerms ts).terms.entries, Ord.compare t.1 e.1 = .gt := by
        rw [hentries]
        intro e he
        exact Std.OrientedCmp.gt_iff_lt.mpr (habove e he t (List.mem_singleton_self t))
      rw [ofTerms_concat, addTerm, OrderedMap.insertWith, OrderedMap.upsertEntry_of_forall_gt hgt,
        hentries]

end LinearSum

end LinOpt
