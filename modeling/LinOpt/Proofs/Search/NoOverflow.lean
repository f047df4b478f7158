import LinOpt.Proofs.Search.Accepted
import LinOpt.Proofs.Search.CheckedSums

namespace LinOpt.Search

variable {p : Problem} {r : Ranges} {t : Task} {s : State}

structure State.Within (p : Problem) (s : State) : Prop extends s.Tracks p where
  inDomains : List.Forall₂ Domain.Contains (p.domains.take s.point.length) s.point

theorem State.Within.visit (h : s.Within p) : (t.visit s).Within p :=
  ⟨h.toTracks.visit, h.inDomains⟩

theorem State.Within.of_chosen {s' : State} (h : s.Within p) (hs : s'.Tracks p)
    (hc : s'.chosen = s.chosen) : s'.Within p := by
  have hpoint : s'.point = s.point := congrArg List.reverse hc
  exact ⟨hs, hpoint ▸ h.inDomains⟩

theorem State.Within.choose {d : Domain} {ds : List Domain} {v : Int} (h : s.Within p)
    (hd : p.domains.drop s.chosen.length = d :: ds) (hv : d.Contains v) :
    (Task.choose (p.levelAt s.chosen.length d) v s).Within p := by
  refine ⟨h.toTracks.choose d v, ?_⟩
  rw [← State.length_point] at hd
  rw [State.point_choose, List.length_append, List.length_singleton, List.take_add, hd]
  exact List.rel_append h.inDomains (.cons hv .nil)

theorem allowedIn_eq (hr : r.Suffice p) (hs : s.Within p) :
    allowedIn r.rows p.rows s.activity (p.rowReachFrom s.chosen.length) =
      some (allowed p.rows s.activity (p.rowReachFrom s.chosen.length)) := by
  rw [hs.activity, Problem.rowReachFrom]
  apply allowedIn_map
  refine hr.rows.imp fun ok row h => ?_
  obtain ⟨-, hlow, hhigh⟩ := natAbs_dot_add_reach_le row.coefficients hs.inDomains
  rw [State.length_point] at hlow hhigh
  exact allowsIn_eq h row hlow hhigh

theorem mayImproveIn_eq (hr : r.Suffice t.problem) (hs : s.Within t.problem) :
    t.mayImproveIn r s (t.problem.costReachFrom s.chosen.length) =
      some (t.mayImprove s (t.problem.costReachFrom s.chosen.length)) := by
  obtain ⟨-, hlow, hhigh⟩ := natAbs_dot_add_reach_le t.problem.objective hs.inDomains
  rw [State.length_point, ← hs.cost, ← Problem.costReachFrom] at hlow hhigh
  have hsum {n : Int} (hn : n.natAbs ≤ sizeBound t.problem.objective t.problem.domains) :
      Option.guard r.objective n = some n ∧
        Option.guard r.objective (n + t.problem.offset) = some (n + t.problem.offset) :=
    ⟨hr.objective.guard (by omega), hr.objective.guard (by omega)⟩
  rw [Task.mayImproveIn, Task.mayImprove]
  cases t.optimize with
  | false => rfl
  | true =>
      cases s.incumbent with
      | none => rfl
      | some i =>
          cases t.problem.maximize with
          | true =>
              obtain ⟨h₁, h₂⟩ := hsum hhigh
              simp [h₁, h₂]
          | false =>
              obtain ⟨h₁, h₂⟩ := hsum hlow
              simp [h₁, h₂]

theorem promisingIn_eq (hr : r.Suffice t.problem) (hs : s.Within t.problem) {l : Level}
    (hrow : l.rowReach = t.problem.rowReachFrom s.chosen.length)
    (hcost : l.costReach = t.problem.costReachFrom s.chosen.length) :
    t.promisingIn r l s = some (t.promising l s) := by
  rw [Task.promisingIn, Task.promising, hrow, hcost, allowedIn_eq hr hs, mayImproveIn_eq hr hs,
    Option.bind_eq_bind, Option.bind_some]
  cases allowed t.problem.rows s.activity (t.problem.rowReachFrom s.chosen.length) <;> rfl

theorem recordIn_eq (hr : r.Suffice t.problem) (hs : s.Within t.problem)
    (hleaf : t.problem.domains.drop s.chosen.length = []) :
    t.recordIn r s = some (t.record s) := by
  have hin := hs.inDomains
  rw [State.length_point, List.take_of_length_le (List.drop_eq_nil_iff.mp hleaf)] at hin
  simp only [Task.recordIn, Task.record]
  rw [show s.chosen.reverse = s.point from rfl, objectiveValueIn_eq hr hin]
  rfl

theorem assignIn_eq (hr : r.Suffice p) (hs : s.Tracks p) {d : Domain} {ds : List Domain} {k : Nat}
    {v sign : Int} (hd : p.domains.drop k = d :: ds) (hv : d.Contains v) (hsign : sign = 1 ∨ sign = -1)
    (hsum : ∀ cs : List Int, (dot cs s.point + (cs.drop k).headD 0 * (v * sign)).natAbs ≤
      sizeBound cs p.domains) :
    Task.assignIn r (p.levelAt k d) v sign s = some { s with
      activity := p.rows.map fun row =>
        dot row.coefficients s.point + (row.coefficients.drop k).headD 0 * (v * sign)
      cost := s.cost + (p.objective.drop k).headD 0 * (v * sign) } := by
  have hproduct (cs : List Int) :
      ((cs.drop k).headD 0 * (v * sign)).natAbs ≤ sizeBound cs p.domains := by
    have := natAbs_headD_mul_le cs k hd hv
    rcases hsign with rfl | rfl
    · rwa [Int.mul_one]
    · rwa [Int.mul_neg_one, Int.mul_neg, Int.natAbs_neg]
  have hvalue : Option.guard r.value (v * sign) = some (v * sign) := by
    have hmem : d ∈ p.domains := List.mem_of_mem_drop (hd ▸ List.mem_cons_self)
    obtain ⟨hpos, hneg⟩ := hr.value d hmem v hv
    rcases hsign with rfl | rfl
    · rw [Int.mul_one, Option.guard, if_pos hpos]
    · rw [Int.mul_neg_one, Option.guard, if_pos hneg]
  have hcolumn : Task.addColumnIn (v * sign) r.rows s.activity (p.levelAt k d).column =
      some (p.rows.map fun row =>
        dot row.coefficients s.point + (row.coefficients.drop k).headD 0 * (v * sign)) := by
    rw [hs.activity, Problem.levelAt]
    exact addColumnIn_map (f := fun row => dot row.coefficients s.point)
      (g := fun row => (row.coefficients.drop k).headD 0) (hr.rows.imp fun ok row h =>
        ⟨h.guard (hproduct row.coefficients), h.guard (hsum row.coefficients)⟩)
  have hcostProduct : Option.guard r.objective ((p.levelAt k d).cost * (v * sign)) = some _ :=
    hr.objective.guard (Nat.le_trans (hproduct p.objective) (Nat.le_add_left _ _))
  have hcostSum : Option.guard r.objective (s.cost + (p.levelAt k d).cost * (v * sign)) =
      some (s.cost + (p.levelAt k d).cost * (v * sign)) := by
    rw [hs.cost]
    exact hr.objective.guard (Nat.le_trans (hsum p.objective) (Nat.le_add_left _ _))
  simp only [Task.assignIn, hvalue, hcolumn, hcostProduct, hcostSum, Option.bind_eq_bind,
    Option.bind_some]
  rfl

theorem chooseIn_eq (hr : r.Suffice p) (hs : s.Within p) {d : Domain} {ds : List Domain} {v : Int}
    (hd : p.domains.drop s.chosen.length = d :: ds) (hv : d.Contains v) :
    Task.chooseIn r (p.levelAt s.chosen.length d) v s =
      some (Task.choose (p.levelAt s.chosen.length d) v s) := by
  have hsum (cs : List Int) : (dot cs s.point + (cs.drop s.chosen.length).headD 0 * (v * 1)).natAbs ≤
      sizeBound cs p.domains := by
    have := (natAbs_dot_add_reach_le cs (hs.choose hd hv).inDomains).1
    rwa [State.point_choose, dot_concat, State.length_point, ← Int.mul_one v] at this
  rw [Task.chooseIn, assignIn_eq hr hs.toTracks hd hv (.inl rfl) hsum]
  simp only [Task.choose, Problem.levelAt, hs.activity, List.zipWith_map, List.zipWith_self,
    Int.mul_one, Option.map_some]

theorem takeBackIn_eq (hr : r.Suffice p) (hs : s.Within p) {d : Domain} {ds : List Domain} {v : Int}
    {vs : List Int} (hc : s.chosen = v :: vs) (hd : p.domains.drop vs.length = d :: ds)
    (hv : d.Contains v) :
    Task.takeBackIn r (p.levelAt vs.length d) v s =
      some (Task.takeBack (p.levelAt vs.length d) v s) := by
  have hpoint : s.point = vs.reverse ++ [v] := by rw [State.point, hc, List.reverse_cons]
  have hin : List.Forall₂ Domain.Contains (p.domains.take vs.reverse.length) vs.reverse := by
    have h := List.forall₂_take vs.reverse.length hs.inDomains
    rwa [hpoint, List.take_left, List.take_take, List.length_append, Nat.min_eq_left
      (Nat.le_add_right _ _)] at h
  have hsum (cs : List Int) :
      (dot cs s.point + (cs.drop vs.length).headD 0 * (v * -1)).natAbs ≤ sizeBound cs p.domains := by
    rw [hpoint, dot_concat, List.length_reverse, Int.mul_neg_one, Int.mul_neg, Int.add_neg_cancel_right]
    exact (natAbs_dot_add_reach_le cs hin).1
  rw [Task.takeBackIn, assignIn_eq hr hs.toTracks hd hv (.inr rfl) hsum]
  simp only [Task.takeBack, Problem.levelAt, hs.activity, List.zipWith_map, List.zipWith_self,
    Int.mul_neg, Int.mul_one, Int.sub_eq_add_neg, Option.map_some]

theorem tryValuesIn_eq {f : Int → State → State} {g : Int → State → Option State} {v : Int} {n : Nat}
    (hg : ∀ w, v ≤ w → w < v + n → ∀ s', s'.Within p → s'.chosen = s.chosen →
      g w s' = some (f w s') ∧ (f w s').Within p ∧ (f w s').chosen = s'.chosen)
    (hs : s.Within p) : Task.tryValuesIn g v n s = some (Task.tryValues f v n s) := by
  induction n generalizing s v with
  | zero => rfl
  | succ n ih =>
      obtain ⟨hv, hwithin, hchosen⟩ := hg v (Int.le_refl v) (by omega) s hs rfl
      rw [Task.tryValuesIn, Task.tryValues, hv, Option.bind_eq_bind, Option.bind_some]
      cases (f v s).stopped with
      | true => rfl
      | false =>
          exact ih (fun w hl hu s' hs' hc =>
            hg w (by omega) (by omega) s' hs' (hc.trans hchosen)) hwithin

theorem branchIn_eq (hr : r.Suffice t.problem) (hs : s.Within t.problem) {d : Domain}
    {ds : List Domain} {v : Int} {ls : List Level}
    (hd : t.problem.domains.drop s.chosen.length = d :: ds) (hv : d.Contains v)
    (hls : ∀ s', s'.chosen = v :: s.chosen → s'.Within t.problem → t.viable s' = true →
      t.exploreIn r ls s' = some (t.explore ls s') ∧
        t.Offers s' (t.problem.extensions s'.point) (t.explore ls s')) :
    let l := t.problem.levelAt s.chosen.length d
    let s' := Task.choose l v s
    let back := Task.takeBack l v (if t.promising l s' then t.explore ls s' else s')
    (do
      let s ← Task.chooseIn r l v s
      let s ← if ← t.promisingIn r l s then t.exploreIn r ls s else some s
      Task.takeBackIn r l v s) = some back ∧ back.Within t.problem ∧ back.chosen = s.chosen := by
  intro l s' back
  have hs' : s'.Within t.problem := hs.choose hd hv
  have hpromising : t.promisingIn r l s' = some (t.promising l s') := promisingIn_eq hr hs' rfl rfl
  have hback {s'' : State} (hw : s''.Within t.problem) (hc : s''.chosen = s'.chosen) :
      Task.takeBackIn r l v s'' = some (Task.takeBack l v s'') := takeBackIn_eq hr hw hc hd hv
  have hoffers := branch_offers (d := d) hs.toTracks fun s₂ hc ht hviable =>
    (hls s₂ hc (hs'.of_chosen ht hc) hviable).2
  refine ⟨?_, hs.of_chosen hoffers.tracks hoffers.chosen, hoffers.chosen⟩
  rw [chooseIn_eq hr hs hd hv]
  simp only [Option.bind_eq_bind, Option.bind_some, back]
  rw [hpromising, Option.bind_some]
  cases hviable : t.promising l s' with
  | true =>
      obtain ⟨hexplore, hbelow⟩ := hls s' rfl hs' hviable
      rw [if_pos rfl, if_pos rfl, hexplore, Option.bind_some]
      exact hback (hs'.of_chosen hbelow.tracks hbelow.chosen) hbelow.chosen
  | false =>
      rw [if_neg Bool.false_ne_true, if_neg Bool.false_ne_true]
      exact hback hs' rfl

theorem exploreIn_eq (hr : r.Suffice t.problem) (hs : s.Within t.problem) {ds : List Domain}
    (hds : t.problem.domains.drop s.chosen.length = ds) (hv : t.viable s = true) :
    t.exploreIn r (t.problem.levelsFrom s.chosen.length) s =
      some (t.explore (t.problem.levelsFrom s.chosen.length) s) := by
  -- on the domains below the node; that exploring restores the sums is known from what it offers
  induction ds generalizing s with
  | nil =>
      rw [Problem.levelsFrom_nil _ hds, Task.exploreIn, Task.explore]
      split
      · rfl
      · exact recordIn_eq hr hs.visit hds
  | cons d ds ih =>
      rw [Problem.levelsFrom_cons _ hds, Task.exploreIn, Task.explore]
      split
      · rfl
      · apply tryValuesIn_eq (p := t.problem) _ hs.visit
        intro v hl hu s₁ hs₁ (hc : s₁.chosen = s.chosen)
        have hv : d.Contains v := by
          simp only [Problem.levelAt, Domain.size] at hl hu
          exact ⟨hl, by omega⟩
        rw [← hc] at hds
        have hlevel : t.problem.levelAt s.chosen.length d = t.problem.levelAt s₁.chosen.length d := by
          rw [hc]
        rw [hlevel, ← hc]
        apply branchIn_eq hr hs₁ hds hv
        intro s₂ hc₂ hs₂ hv₂
        have hlen₂ : s₂.chosen.length = s₁.chosen.length + 1 := by rw [hc₂, List.length_cons]
        have hds₂ : t.problem.domains.drop s₂.chosen.length = ds := by
          rw [hlen₂, drop_succ_of_drop hds]
        rw [← hlen₂]
        exact ⟨ih hs₂ hds₂ hv₂, explore_offers hs₂.toTracks hds₂ hv₂⟩

theorem finalIn_eq (hr : r.Suffice t.problem) :
    t.finalIn r t.problem.rowReach t.problem.levels = some t.final := by
  have hstart : t.start.Within t.problem := ⟨start_tracks, .nil⟩
  have hallowed : allowedIn r.rows t.problem.rows t.start.activity t.problem.rowReach =
      some (allowed t.problem.rows t.start.activity t.problem.rowReach) := allowedIn_eq hr hstart
  rw [Task.finalIn, Task.final, hallowed, Option.bind_eq_bind, Option.bind_some]
  split
  case isTrue h =>
    have hviable : t.viable t.start = true := by
      rw [Task.viable, Bool.and_eq_true]
      exact ⟨h, by simp [Task.mayImprove, Task.start]⟩
    exact exploreIn_eq hr hstart rfl hviable
  case isFalse => rfl

theorem runIn_eq (hr : r.Suffice t.problem) : t.runIn r = some t.run := by
  have hrows : reachesIn r.rows (t.problem.rows.map (·.coefficients)) t.problem.domains =
      some t.problem.rowReach := reachesIn_eq hr 0
  have hcost : reachIn r.objective t.problem.objective t.problem.domains =
      some t.problem.costReach := costReachIn_eq hr 0
  have hlevels : levelsIn r t.problem.domains (t.problem.rows.map (·.coefficients))
      t.problem.objective = some t.problem.levels := levelsIn_eq hr (k := 0) rfl
  have hroot : Option.guard r.objective t.problem.rootBound = some t.problem.rootBound := by
    obtain ⟨hlow, hhigh⟩ := natAbs_reach_le t.problem.objective t.problem.domains
    apply hr.objective.guard
    simp only [Problem.rootBound, Problem.costReach]
    split <;> omega
  simp only [Task.runIn, hrows, hcost, hlevels, finalIn_eq hr, Option.bind_eq_bind, Option.bind_some]
  rw [← Problem.rootBound, hroot]
  rfl

theorem admits_fits {size : Nat} (h : (size : Int) ≤ largestInt) :
    Admits (fun n => fits n && decide (n.natAbs ≤ size)) size := by
  intro n hn
  rw [largestInt] at h
  rw [Bool.and_eq_true, fits_iff, decide_eq_true_iff]
  omega

theorem Accepted.suffice {q : Program} (h : Accepted q p) : p.ranges.Suffice p := by
  refine ⟨fun d hd v hv => ?_, ?_, admits_fits (by exact_mod_cast h.size)⟩
  · have := h.within64 hd hv
    rw [Problem.ranges, fits_iff, fits_iff]
    omega
  · rw [Problem.ranges, List.forall₂_map_left_iff, List.forall₂_same]
    exact fun row hrow => admits_fits (h.row_size hrow)

/-- In the search for an accepted program, every product and every sum is an integer of 128 bits,
and those of a row or of the objective do not exceed the size with which it was accepted: a run with
every result checked is a run. -/
theorem runIn_ranges {q : Program} (h : Problem.ofProgram q = .ok p) (optimize : Bool)
    (clock : Nat → Bool) :
    Task.runIn ⟨p, optimize, clock⟩ p.ranges = some (Task.run ⟨p, optimize, clock⟩) :=
  runIn_eq (ofProgram_accepted h).suffice

/-- The first value is the least integer of 64 bits, so taking it back leaves that range; its product
in the row comes close to the end of 128 bits. -/
def wideProgram : Program where
  name := "wide"
  columns := [⟨"x", .ofInt (-2 ^ 63), .ofInt (-2 ^ 63), .integer⟩,
    ⟨"y", .ofInt (-2), .ofInt 1, .integer⟩]
  rows := [⟨"r", [(0, .ofInt (2 ^ 63)), (1, .ofInt (-3))], .negInfinity, .zero⟩]
  objective := [(0, .one), (1, .ofInt 2)]
  offset := .ofInt (-5)
  maximize := true

def wideProblem : Problem where
  domains := [⟨-2 ^ 63, -2 ^ 63⟩, ⟨-2, 1⟩]
  rows := [⟨[2 ^ 63, -3], none, some 0⟩]
  objective := [1, 2]
  offset := -5
  maximize := true

theorem runIn_ranges_wide : Problem.ofProgram wideProgram = .ok wideProblem ∧
    Task.runIn ⟨wideProblem, true, fun _ => false⟩ wideProblem.ranges =
      some (Task.run ⟨wideProblem, true, fun _ => false⟩) := by
  have h : Problem.ofProgram wideProgram = .ok wideProblem := by decide +kernel
  exact ⟨h, runIn_ranges h true fun _ => false⟩

/-- A run whose ranges are too narrow has no outcome. -/
example : Task.runIn ⟨wideProblem, true, fun _ => false⟩
    { wideProblem.ranges with value := fits64 } = none := by
  decide +kernel

end LinOpt.Search
