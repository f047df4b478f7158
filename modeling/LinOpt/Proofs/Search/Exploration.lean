import LinOpt.Proofs.Search.Reach
import LinOpt.Search.Basic

namespace LinOpt.Search

structure Tally where
  incumbent : Option (List Int × Int) := none
  reported : List (List Int) := []

namespace State

def tally (s : State) : Tally := ⟨s.incumbent, s.reported⟩

/-- The values chosen so far, the first variable first. -/
def point (s : State) : List Int := s.chosen.reverse

/-- The running sums are those of the chosen values. -/
structure Tracks (p : Problem) (s : State) : Prop where
  activity : s.activity = p.rows.map fun row => dot row.coefficients s.point
  cost : s.cost = dot p.objective s.point

end State

namespace Task

variable (t : Task)

/-- A point is wanted if it is better than the best one so far, or if all are. -/
def accepts (a : Tally) (x : List Int) : Bool :=
  match t.optimize, a.incumbent with
  | true, some (_, best) => t.problem.isBetter (t.problem.objectiveValue x) best
  | _, _ => true

def offer (a : Tally) (x : List Int) : Tally :=
  if t.accepts a x then ⟨some (x, t.problem.objectiveValue x), x :: a.reported⟩ else a

def viable (s : State) : Bool :=
  allowed t.problem.rows s.activity (t.problem.rowReachFrom s.chosen.length) &&
    t.mayImprove s (t.problem.costReachFrom s.chosen.length)

/-- From `s` to `s'`, the points `xs` were offered in order, all of them unless the clock stopped
the search. Chosen values and sums are as before. -/
structure Offers (s : State) (xs : List (List Int)) (s' : State) : Prop where
  chosen : s'.chosen = s.chosen
  tracks : s'.Tracks t.problem
  offered : ∃ seen, seen <+: xs ∧ (s'.stopped = false → seen = xs) ∧
    s'.tally = seen.foldl t.offer s.tally

end Task

variable {t : Task} {p : Problem} {s s' : State}

theorem foldl_offer_of_rejected {a : Tally} {xs : List (List Int)}
    (h : ∀ x ∈ xs, t.accepts a x = false) : xs.foldl t.offer a = a := by
  induction xs with
  | nil => rfl
  | cons x xs ih =>
      have hx : t.offer a x = a := by simp [Task.offer, h x List.mem_cons_self]
      rw [List.foldl_cons, hx]
      exact ih fun y hy => h y (List.mem_cons_of_mem _ hy)

theorem dot_concat (cs xs : List Int) (v : Int) :
    dot cs (xs ++ [v]) = dot cs xs + (cs.drop xs.length).headD 0 * v := by
  simp [dot_append]

theorem State.Tracks.visit (h : s.Tracks p) : (t.visit s).Tracks p := ⟨h.activity, h.cost⟩

theorem State.point_choose (l : Level) (v : Int) : (Task.choose l v s).point = s.point ++ [v] :=
  List.reverse_cons

theorem State.length_point : s.point.length = s.chosen.length := List.length_reverse

theorem State.Tracks.choose (h : s.Tracks p) (d : Domain) (v : Int) :
    (Task.choose (p.levelAt s.chosen.length d) v s).Tracks p := by
  constructor
  · rw [State.point_choose]
    simp only [Task.choose, Problem.levelAt, h.activity, List.zipWith_map, List.zipWith_self,
      dot_concat, State.length_point]
  · rw [State.point_choose]
    simp only [Task.choose, Problem.levelAt, h.cost, dot_concat, State.length_point]

theorem State.Tracks.takeBack (h : s.Tracks p) {d : Domain} {v : Int} {vs : List Int}
    (hv : s.chosen = v :: vs) : (Task.takeBack (p.levelAt vs.length d) v s).Tracks p := by
  have hp : s.point = vs.reverse ++ [v] := by rw [State.point, hv, List.reverse_cons]
  have hp' : (Task.takeBack (p.levelAt vs.length d) v s).point = vs.reverse := by
    simp [Task.takeBack, State.point, hv]
  constructor
  · rw [hp']
    simp only [Task.takeBack, Problem.levelAt, h.activity, hp, List.zipWith_map, List.zipWith_self,
      dot_concat, List.length_reverse, Int.add_sub_cancel]
  · rw [hp']
    simp only [Task.takeBack, Problem.levelAt, h.cost, hp, dot_concat, List.length_reverse,
      Int.add_sub_cancel]

theorem allowed_of_mem_extensions (hs : s.Tracks p) {y : List Int} (hy : y ∈ p.extensions s.point) :
    allowed p.rows s.activity (p.rowReachFrom s.chosen.length) = true := by
  rw [hs.activity, Problem.rowReachFrom, allowed_map, List.all_eq_true]
  intro row hrow
  obtain ⟨hl, hu⟩ := Problem.dot_extension row.coefficients hy
  obtain ⟨hlower, hupper⟩ := LinearRow.holds_iff.mp (Problem.holds_of_mem_extensions hy hrow)
  rw [State.length_point] at hl hu
  rw [LinearRow.allows_iff]
  constructor
  · intro l h
    have := hlower l h
    omega
  · intro u h
    have := hupper u h
    omega

theorem mayImprove_of_accepts (hs : s.Tracks t.problem) {y : List Int}
    (hy : y ∈ t.problem.extensions s.point) (ha : t.accepts s.tally y = true) :
    t.mayImprove s (t.problem.costReachFrom s.chosen.length) = true := by
  obtain ⟨hl, hu⟩ := Problem.dot_extension t.problem.objective hy
  rw [State.length_point] at hl hu
  cases ho : t.optimize with
  | false => simp [Task.mayImprove, ho]
  | true =>
      cases hi : s.incumbent with
      | none => simp [Task.mayImprove, hi]
      | some i =>
          simp only [Task.accepts, State.tally, ho, hi, Problem.isBetter_iff,
            Problem.objectiveValue] at ha
          simp only [Task.mayImprove, ho, hi, hs.cost, Problem.costReachFrom]
          split at ha
          · rw [if_pos ‹_›, decide_eq_true_eq]
            omega
          · rw [if_neg ‹_›, decide_eq_true_eq]
            omega

theorem viable_of_accepts (hs : s.Tracks t.problem) {y : List Int}
    (hy : y ∈ t.problem.extensions s.point) (ha : t.accepts s.tally y = true) :
    t.viable s = true := by
  rw [Task.viable, allowed_of_mem_extensions hs hy, mayImprove_of_accepts hs hy ha]
  rfl

/-- At a leaf the test is exact: the point is feasible and wanted. -/
theorem leaf_of_viable (hs : s.Tracks t.problem)
    (hd : t.problem.domains.drop s.chosen.length = []) (hv : t.viable s = true) :
    t.problem.extensions s.point = [s.point] ∧ t.accepts s.tally s.point = true := by
  rw [Task.viable, Bool.and_eq_true] at hv
  obtain ⟨hrows, hcost⟩ := hv
  constructor
  · rw [Problem.extensions_leaf t.problem (by rw [State.length_point, hd]), if_pos]
    rw [hs.activity, Problem.rowReachFrom, allowed_map, List.all_eq_true] at hrows
    rw [Problem.satisfiedBy, List.all_eq_true]
    intro row hrow
    have := hrows row hrow
    rw [hd, reach_nil, LinearRow.allows_iff] at this
    rw [LinearRow.holds_iff]
    simpa using this
  · rw [Problem.costReachFrom, hd, reach_nil] at hcost
    cases ho : t.optimize with
    | false => simp [Task.accepts, ho]
    | true =>
        cases hi : s.incumbent with
        | none => simp [Task.accepts, State.tally, hi]
        | some i =>
            simp only [Task.mayImprove, ho, hi, hs.cost, Int.add_zero] at hcost
            simp only [Task.accepts, State.tally, ho, hi, Problem.isBetter, Problem.objectiveValue]
            exact hcost

namespace Task.Offers

theorem refl (hs : s.Tracks t.problem) : t.Offers s [] s :=
  ⟨rfl, hs, [], List.prefix_rfl, fun _ => rfl, rfl⟩

theorem trans {s₁ s₂ : State} {xs ys : List (List Int)} (h : t.Offers s xs s₁)
    (hr : s₁.stopped = false) (h' : t.Offers s₁ ys s₂) : t.Offers s (xs ++ ys) s₂ := by
  obtain ⟨seen, -, hall, htally⟩ := h.offered
  obtain ⟨seen', hpre', hall', htally'⟩ := h'.offered
  obtain rfl := hall hr
  refine ⟨h'.chosen.trans h.chosen, h'.tracks, seen ++ seen', ?_, ?_, ?_⟩
  · exact (List.prefix_append_right_inj seen).mpr hpre'
  · intro hs
    rw [hall' hs]
  · rw [htally', htally, List.foldl_append]

theorem stop {xs : List (List Int)} (h : t.Offers s xs s') (hs : s'.stopped = true)
    (ys : List (List Int)) : t.Offers s (xs ++ ys) s' := by
  obtain ⟨seen, hpre, -, htally⟩ := h.offered
  exact ⟨h.chosen, h.tracks, seen, hpre.trans (List.prefix_append xs ys), by simp [hs], htally⟩

/-- A node that fails its test offers in vain: none of its points would be taken. -/
theorem skip (hs : s.Tracks t.problem) (hv : t.viable s = false) :
    t.Offers s (t.problem.extensions s.point) s := by
  refine ⟨rfl, hs, _, List.prefix_rfl, fun _ => rfl, ?_⟩
  rw [foldl_offer_of_rejected]
  intro x hx
  by_contra ha
  rw [viable_of_accepts hs hx (by simpa using ha)] at hv
  exact Bool.noConfusion hv

end Task.Offers

theorem visit_offers (hs : s.Tracks t.problem) (h : (t.visit s).stopped = true)
    (xs : List (List Int)) : t.Offers s xs (t.visit s) :=
  ⟨rfl, hs.visit, [], List.nil_prefix, by simp [h], rfl⟩

theorem tryValues_offers {f : Int → State → State} {g : Int → List (List Int)}
    (hf : ∀ v s', s'.chosen = s.chosen → s'.Tracks t.problem → t.Offers s' (g v) (f v s'))
    (hs : s.Tracks t.problem) (v : Int) (n : Nat) :
    t.Offers s (((List.range n).map fun i : Nat => v + i).flatMap g) (Task.tryValues f v n s) := by
  induction n generalizing s v with
  | zero => exact .refl hs
  | succ n ih =>
      have hv := hf v s rfl hs
      have hvalues : (List.range (n + 1)).map (fun i : Nat => v + i) =
          v :: (List.range n).map fun i : Nat => v + 1 + i := by
        simp [List.range_succ_eq_map, Function.comp_def, Int.add_assoc, Int.add_comm 1]
      rw [hvalues, List.flatMap_cons, Task.tryValues]
      cases hstop : (f v s).stopped with
      -- a stop below this value keeps the values after it from being tried
      | true => exact hv.stop hstop _
      | false =>
          refine hv.trans hstop (ih ?_ hv.tracks (v + 1))
          intro w s' hc ht
          exact hf w s' (hc.trans hv.chosen) ht

theorem branch_offers {d : Domain} {v : Int} {ls : List Level} (hs : s.Tracks t.problem)
    (hls : ∀ s', s'.chosen = v :: s.chosen → s'.Tracks t.problem → t.viable s' = true →
      t.Offers s' (t.problem.extensions s'.point) (t.explore ls s')) :
    let l := t.problem.levelAt s.chosen.length d
    let s' := Task.choose l v s
    t.Offers s (t.problem.extensions (s.point ++ [v]))
      (Task.takeBack l v (if t.promising l s' then t.explore ls s' else s')) := by
  intro l s'
  have hs' : s'.Tracks t.problem := hs.choose d v
  have hpromising : t.promising l s' = t.viable s' := rfl
  have hbranch : t.Offers s' (t.problem.extensions (s.point ++ [v]))
      (if t.promising l s' then t.explore ls s' else s') := by
    rw [hpromising, ← State.point_choose l v]
    cases hv : t.viable s' with
    | true => exact hls s' rfl hs' hv
    | false => exact .skip hs' hv
  refine ⟨?_, hbranch.tracks.takeBack hbranch.chosen, ?_⟩
  · rw [Task.takeBack, hbranch.chosen]
    rfl
  · exact hbranch.offered

theorem explore_offers {ds : List Domain} (hs : s.Tracks t.problem)
    (hds : t.problem.domains.drop s.chosen.length = ds) (hv : t.viable s = true) :
    t.Offers s (t.problem.extensions s.point)
      (t.explore (t.problem.levelsFrom s.chosen.length) s) := by
  -- on the domains below the node; that the state tracks its values makes every node like the root
  induction ds generalizing s with
  | nil =>
      rw [Problem.levelsFrom_nil _ hds, Task.explore]
      split
      · exact visit_offers hs ‹_› _
      · obtain ⟨hleaf, haccepts⟩ := leaf_of_viable hs hds hv
        rw [hleaf]
        refine ⟨rfl, ⟨hs.activity, hs.cost⟩, _, List.prefix_rfl, fun _ => rfl, ?_⟩
        rw [List.foldl_cons, List.foldl_nil, Task.offer, if_pos haccepts]
        rfl
  | cons d ds ih =>
      have hds' : t.problem.domains.drop (s.chosen.length + 1) = ds := drop_succ_of_drop hds
      rw [Problem.levelsFrom_cons _ hds, Task.explore]
      split
      · exact visit_offers hs ‹_› _
      · rw [Problem.extensions_step _ (by rw [State.length_point, hds])]
        suffices h : t.Offers (t.visit s) _ _ from ⟨h.chosen, h.tracks, h.offered⟩
        apply tryValues_offers (g := fun v => t.problem.extensions (s.point ++ [v])) _ hs.visit
        intro v s₁ hc hs₁
        have hlen : s₁.chosen.length = s.chosen.length := congrArg List.length hc
        have hpoint : s₁.point = s.point := congrArg List.reverse hc
        rw [← hlen, ← hpoint]
        apply branch_offers hs₁
        intro s₂ hc₂ hs₂ hv₂
        have hlen₂ : s₂.chosen.length = s₁.chosen.length + 1 := by rw [hc₂, List.length_cons]
        rw [← hlen₂]
        exact ih hs₂ (by rw [hlen₂, hlen, hds']) hv₂

theorem start_tracks : t.start.Tracks t.problem := by
  constructor <;> simp [Task.start, State.point]

theorem final_offers (t : Task) : t.Offers t.start t.problem.solutions t.final := by
  have hviable : t.viable t.start =
      allowed t.problem.rows t.start.activity t.problem.rowReach := by
    have hroot : t.mayImprove t.start (t.problem.costReachFrom 0) = true := by
      simp [Task.mayImprove, Task.start]
    exact (congrArg _ hroot).trans (Bool.and_true _)
  rw [Task.final, ← hviable, ← Problem.extensions_root]
  cases hv : t.viable t.start with
  | true => exact explore_offers start_tracks rfl hv
  | false => exact .skip start_tracks hv

end LinOpt.Search
