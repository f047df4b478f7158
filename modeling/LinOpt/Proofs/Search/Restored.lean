import LinOpt.Proofs.Search.InPlace
import Mathlib.Algebra.BigOperators.Group.Finset.Basic

namespace LinOpt.Search

theorem dot_eq_sum (cs vs : List Int) :
    dot cs vs = ∑ j ∈ Finset.range vs.length, cs.getD j 0 * vs.getD j 0 := by
  induction vs generalizing cs with
  | nil => simp
  | cons v vs ih =>
      rw [dot_cons, ih, List.length_cons, Finset.sum_range_succ', Int.add_comm]
      cases cs <;> simp

theorem dot_take_eq_sum (cs : List Int) {vs : List Int} {k : Nat} (hk : k ≤ vs.length) :
    dot cs (vs.take k) = ∑ j ∈ Finset.range k, cs.getD j 0 * vs.getD j 0 := by
  rw [dot_eq_sum, List.length_take, Nat.min_eq_left hk]
  refine Finset.sum_congr rfl fun j hj => ?_
  rw [List.getD_eq_getElem?_getD (l := vs.take k), List.getElem?_take_of_lt (Finset.mem_range.mp hj),
    ← List.getD_eq_getElem?_getD]

/-- What is true of a call: the sums at entry, and what is the same at return. -/
structure Restored (p : Problem) (c : Call) : Prop where
  depth_le : c.depth ≤ p.domains.length
  length : c.entry.values.length = p.domains.length
  activity : c.entry.activity = p.rows.map fun row =>
    ∑ j ∈ Finset.range c.depth, row.coefficients.getD j 0 * c.entry.values.getD j 0
  cost : c.entry.cost =
    ∑ j ∈ Finset.range c.depth, p.objective.getD j 0 * c.entry.values.getD j 0
  activity_back : c.exit.activity = c.entry.activity
  cost_back : c.exit.cost = c.entry.cost
  values_back : c.exit.values.take c.depth = c.entry.values.take c.depth
  goesOn : c.goesOn = !c.exit.stopped
  leaf : c.depth = p.domains.length → c.entry.cost + p.offset = p.objectiveValue c.entry.values

/-- A state in which depth `k` can be entered. -/
structure Ready (p : Problem) (k : Nat) (b : Board) : Prop where
  depth_le : k ≤ p.domains.length
  length : b.values.length = p.domains.length
  tracks : (b.view k).Tracks p
  stopped : b.stopped = false

/-- The walk returns to depth `k` in the state `s`, with the sums and the values that `b` has there. -/
structure Returns (t : Task) (k : Nat) (b : Board) (s : State) (w : Walk) : Prop where
  view : w.board.view k = s
  length : w.board.values.length = t.problem.domains.length
  tracks : s.Tracks t.problem
  kept : w.board.values.take k = b.values.take k
  goesOn : w.goesOn = !s.stopped

/-- Also, each call on the way counts one node and puts back what it found. -/
structure Walked (t : Task) (k : Nat) (b : Board) (s : State) (w : Walk) : Prop
    extends Returns t k b s w where
  nodes : w.board.nodes = b.nodes + w.calls.length
  calls : ∀ c ∈ w.calls, Restored t.problem c

variable {t : Task} {k : Nat} {b : Board} {s : State} {w : Walk}

namespace Ready

theorem length_take {p : Problem} (h : Ready p k b) : (b.values.take k).length = k :=
  List.length_take_of_le (h.length ▸ h.depth_le)

theorem take_eq {p : Problem} (h : Ready p k b) (hk : k = p.domains.length) :
    b.values.take k = b.values :=
  List.take_of_length_le (Nat.le_of_eq (h.length.trans hk.symm))

theorem activity_eq_dot {p : Problem} (h : Ready p k b) :
    b.activity = p.rows.map fun row => dot row.coefficients (b.values.take k) := by
  rw [← Board.point_view]
  exact h.tracks.activity

theorem cost_eq_dot {p : Problem} (h : Ready p k b) :
    b.cost = dot p.objective (b.values.take k) := by
  rw [← Board.point_view]
  exact h.tracks.cost

theorem activity {p : Problem} (h : Ready p k b) : b.activity = p.rows.map fun row =>
    ∑ j ∈ Finset.range k, row.coefficients.getD j 0 * b.values.getD j 0 := by
  have hk : k ≤ b.values.length := h.length ▸ h.depth_le
  exact h.activity_eq_dot.trans
    (List.map_congr_left fun row _ => dot_take_eq_sum row.coefficients hk)

theorem cost {p : Problem} (h : Ready p k b) :
    b.cost = ∑ j ∈ Finset.range k, p.objective.getD j 0 * b.values.getD j 0 := by
  have hk : k ≤ b.values.length := h.length ▸ h.depth_le
  exact h.cost_eq_dot.trans (dot_take_eq_sum p.objective hk)

theorem objectiveValue {p : Problem} (h : Ready p k b) (hk : k = p.domains.length) :
    b.cost + p.offset = p.objectiveValue b.values := by
  rw [h.cost_eq_dot, h.take_eq hk, Problem.objectiveValue]

theorem walked (h : Ready t.problem k b) : Walked t k b (b.view k) ⟨true, b, []⟩ where
  view := rfl
  length := h.length
  tracks := h.tracks
  kept := rfl
  goesOn := by rw [show (b.view k).stopped = false from h.stopped]; rfl
  nodes := rfl
  calls := List.forall_mem_nil _

end Ready

theorem Returns.restored (h : Returns t k b s w) (hb : Ready t.problem k b) :
    Restored t.problem ⟨k, b, w.board, w.goesOn⟩ := by
  have htracks : (w.board.view k).Tracks t.problem := h.view ▸ h.tracks
  have hpoint : (w.board.view k).point = (b.view k).point := by
    rw [Board.point_view, Board.point_view, h.kept]
  constructor
  case depth_le => exact hb.depth_le
  case length => exact hb.length
  case activity => exact hb.activity
  case cost => exact hb.cost
  case activity_back =>
    have hactivity := htracks.activity
    rw [hpoint, ← hb.tracks.activity] at hactivity
    exact hactivity
  case cost_back =>
    have hcost := htracks.cost
    rw [hpoint, ← hb.tracks.cost] at hcost
    exact hcost
  case values_back => exact h.kept
  case goesOn =>
    rw [h.goesOn, ← h.view]
    rfl
  case leaf => exact hb.objectiveValue

namespace Walked

theorem ready (h : Walked t k b s w) (hb : Ready t.problem k b) (hs : s.stopped = false) :
    Ready t.problem k w.board where
  depth_le := hb.depth_le
  length := h.length
  tracks := h.view ▸ h.tracks
  stopped := by rw [← hs, ← h.view]; rfl

theorem trans {s' : State} {w' : Walk} (h : Walked t k b s w) (h' : Walked t k w.board s' w') :
    Walked t k b s' { w' with calls := w.calls ++ w'.calls } where
  view := h'.view
  length := h'.length
  tracks := h'.tracks
  kept := h'.kept.trans h.kept
  goesOn := h'.goesOn
  nodes := by rw [h'.nodes, h.nodes, List.length_append, Nat.add_assoc]
  calls := List.forall_mem_append.mpr ⟨h.calls, h'.calls⟩

end Walked

theorem ready_assign (hb : Ready t.problem k b) (hk : k < t.problem.domains.length) (d : Domain)
    (v : Int) : Ready t.problem (k + 1) (b.assign t.problem k v 1) := by
  have hlt : k < b.values.length := hb.length.symm ▸ hk
  have htracks := hb.tracks.choose d v
  rw [Board.length_chosen (Nat.le_of_lt hlt), ← Board.view_assign hlt] at htracks
  exact ⟨hk, (List.length_set ..).trans hb.length, htracks, hb.stopped⟩

theorem Walked.unassign {v : Int} (h : Walked t (k + 1) (b.assign t.problem k v 1) s w)
    (hb : Ready t.problem k b) (hk : k < t.problem.domains.length) (d : Domain) :
    Walked t k b (Task.takeBack (t.problem.levelAt k d) v s)
      { w with board := w.board.assign t.problem k v (-1) } := by
  have hlt : k < b.values.length := hb.length.symm ▸ hk
  have hchosen : s.chosen = v :: (b.view k).chosen := by
    calc s.chosen = (w.board.values.take (k + 1)).reverse := by rw [← h.view]; rfl
      _ = ((b.assign t.problem k v 1).view (k + 1)).chosen := by rw [h.kept]; rfl
      _ = v :: (b.view k).chosen := by rw [Board.view_assign hlt d]; rfl
  have htracks := h.tracks.takeBack (d := d) hchosen
  rw [Board.length_chosen (Nat.le_of_lt hlt)] at htracks
  have hkept := congrArg (List.take k) h.kept
  rw [List.take_take, List.take_take, Nat.min_eq_left (Nat.le_succ k)] at hkept
  refine { h with view := ?view, tracks := htracks, kept := ?kept }
  case view => rw [Board.view_unassign (h.length.symm ▸ hk) d, h.view]
  case kept => exact hkept.trans (List.take_set_of_le (Nat.le_refl k))

theorem attempt_walked {ls : List Level} {below : Board → Walk} (hb : Ready t.problem k b)
    (hk : k < t.problem.domains.length) (d : Domain)
    (hbelow : ∀ b', Ready t.problem (k + 1) b' →
      Walked t (k + 1) b' (t.explore ls (b'.view (k + 1))) (below b')) (v : Int) :
    let l := t.problem.levelAt k d
    let s := Task.choose l v (b.view k)
    Walked t k b (Task.takeBack l v (if t.promising l s then t.explore ls s else s))
      (t.attempt k below v b) := by
  have hlt : k < b.values.length := hb.length.symm ▸ hk
  have hready := ready_assign hb hk d v
  intro l s
  have hs : s = (b.assign t.problem k v 1).view (k + 1) := (Board.view_assign hlt d v).symm
  rw [hs, Board.promising_levelAt, Task.attempt]
  refine Walked.unassign ?_ hb hk d
  split
  · exact hbelow _ hready
  · exact hready.walked

theorem attempts_walked {f : Int → Board → Walk} {g : Int → State → State}
    (hf : ∀ v b, Ready t.problem k b → Walked t k b (g v (b.view k)) (f v b))
    (hb : Ready t.problem k b) (v : Int) (n : Nat) :
    Walked t k b (Task.tryValues g v n (b.view k)) (Task.attempts f v n b) := by
  induction n generalizing v b with
  | zero => exact hb.walked
  | succ n ih =>
      have hv := hf v b hb
      rw [Task.tryValues, Task.attempts]
      cases hstop : (g v (b.view k)).stopped with
      | true =>
          have hanswer : (f v b).goesOn = false := by rw [hv.goesOn, hstop]; rfl
          simp only [hanswer, if_true, Bool.false_eq_true, if_false]
          exact hv
      | false =>
          have hanswer : (f v b).goesOn = true := by rw [hv.goesOn, hstop]; rfl
          simp only [hanswer, if_true, Bool.false_eq_true, if_false]
          have hrest := ih (hv.ready hb hstop) (v + 1)
          rw [hv.view] at hrest
          exact hv.trans hrest

theorem Returns.logged (h : Returns t k b s w) (hb : Ready t.problem k b)
    (hnodes : w.board.nodes = b.nodes + 1 + w.calls.length)
    (hcalls : ∀ c ∈ w.calls, Restored t.problem c) :
    Walked t k b s { w with calls := ⟨k, b, w.board, w.goesOn⟩ :: w.calls } where
  view := h.view
  length := h.length
  tracks := h.tracks
  kept := h.kept
  goesOn := h.goesOn
  nodes := by rw [hnodes, List.length_cons, Nat.add_assoc, Nat.add_comm 1]
  calls := List.forall_mem_cons.mpr ⟨h.restored hb, hcalls⟩

theorem enter_walked {body : Board → Walk} {g : State → State} (hb : Ready t.problem k b)
    (hbody : ∀ b', Ready t.problem k b' → Walked t k b' (g (b'.view k)) (body b')) :
    let s := t.visit (b.view k)
    Walked t k b (if s.stopped then s else g s) (t.enter k b body) := by
  intro s
  have hs : s = ({ b with nodes := b.nodes + 1, stopped := t.timeUp (b.nodes + 1) } : Board).view k :=
    Board.visit_view hb.stopped k
  have htracks : s.Tracks t.problem := hb.tracks.visit
  rw [Task.enter]
  cases htime : t.timeUp (b.nodes + 1) with
  | true =>
      rw [htime] at hs
      have hstop : s.stopped = true := by rw [hs]; rfl
      have hreturns : Returns t k b s
          ⟨false, { b with nodes := b.nodes + 1, stopped := true }, []⟩ :=
        ⟨hs.symm, hb.length, htracks, rfl, by rw [hstop]; rfl⟩
      simp only [hstop, if_true]
      exact hreturns.logged hb rfl (List.forall_mem_nil _)
  | false =>
      rw [htime, ← hb.stopped] at hs
      have hstop : s.stopped = false := by rw [hs]; exact hb.stopped
      simp only [hstop, Bool.false_eq_true, if_false]
      have hwalked := hbody { b with nodes := b.nodes + 1 }
        ⟨hb.depth_le, hb.length, hs ▸ htracks, hb.stopped⟩
      rw [← hs] at hwalked
      have hreturns : Returns t k b (g s) (body { b with nodes := b.nodes + 1 }) :=
        { hwalked with }
      exact hreturns.logged hb hwalked.nodes hwalked.calls

theorem record_walked (hb : Ready t.problem k b) (hk : t.problem.domains.length = k) :
    Walked t k b (t.record (b.view k)) ⟨true, b.record t.problem, []⟩ where
  view := Board.view_record (hb.length.trans hk)
  length := hb.length
  tracks := ⟨hb.tracks.activity, hb.tracks.cost⟩
  kept := rfl
  goesOn := by rw [show (t.record (b.view k)).stopped = false from hb.stopped]; rfl
  nodes := rfl
  calls := List.forall_mem_nil _

theorem descend_walked {ds : List Domain} (hb : Ready t.problem k b)
    (hds : t.problem.domains.drop k = ds) :
    Walked t k b (t.explore (t.problem.levelsFrom k) (b.view k)) (t.descend ds k b) := by
  induction ds generalizing k b with
  | nil =>
      have hk : t.problem.domains.length = k :=
        Nat.le_antisymm (List.drop_eq_nil_iff.mp hds) hb.depth_le
      rw [Problem.levelsFrom_nil _ hds, Task.explore, Task.descend]
      exact enter_walked (g := t.record) hb fun b' hb' => record_walked hb' hk
  | cons d ds ih =>
      have hds' : t.problem.domains.drop (k + 1) = ds := drop_succ_of_drop hds
      have hk := lt_length_of_drop hds
      rw [Problem.levelsFrom_cons _ hds, Task.explore, Task.descend]
      refine enter_walked hb fun b' hb' => attempts_walked ?_ hb' d.lower d.size
      exact fun v b'' hb'' => attempt_walked hb'' hk d (fun b₃ hb₃ => ih hb₃ hds') v

theorem start_ready (t : Task) : Ready t.problem 0 (Board.start t.problem) where
  depth_le := Nat.zero_le _
  length := List.length_replicate
  tracks := by rw [Board.view_start]; exact start_tracks
  stopped := rfl

theorem walk_walked (t : Task) : Walked t 0 (Board.start t.problem) t.final t.walk := by
  have hroot : t.consistent 0 (Board.start t.problem) =
      allowed t.problem.rows t.start.activity t.problem.rowReach := rfl
  rw [Task.walk, Task.final, hroot, ← Board.view_start]
  split
  · exact descend_walked (start_ready t) rfl
  · exact (start_ready t).walked

/-- The search in place comes to the state from which the outcome is taken, and makes a call for
every node counted there. At each call the sums are those of the values before its depth, and at
its return they and these values are as before. -/
theorem walk_restored (t : Task) :
    t.walk.board.view 0 = t.final ∧ t.walk.calls.length = t.final.nodes ∧
      ∀ c ∈ t.walk.calls, Restored t.problem c := by
  have hwalk := walk_walked t
  have hnodes : t.final.nodes = 0 + t.walk.calls.length := by
    rw [← hwalk.view]
    exact hwalk.nodes
  exact ⟨hwalk.view, by rw [hnodes, Nat.zero_add], hwalk.calls⟩

def oneOfTwo : Task where
  problem := ⟨[⟨0, 1⟩, ⟨0, 1⟩], [⟨[1, 1], some 1, some 1⟩], [2, -1], 3, false⟩
  optimize := true
  clock _ := false

theorem walk_restored_oneOfTwo : ∃ c ∈ oneOfTwo.walk.calls,
    (c.depth = 2 ∧ c.goesOn = true ∧ c.entry.values = [0, 1] ∧ c.entry.cost = -1) ∧
      Restored oneOfTwo.problem c := by
  obtain ⟨c, hc, hleaf⟩ : ∃ c ∈ oneOfTwo.walk.calls,
    c.depth = 2 ∧ c.goesOn = true ∧ c.entry.values = [0, 1] ∧ c.entry.cost = -1 := by decide
  exact ⟨c, hc, hleaf, (walk_restored oneOfTwo).2.2 c hc⟩

/-- The places keep the values tried last, although nothing is chosen any more. -/
example : oneOfTwo.walk.board.values = [1, 1] ∧
    oneOfTwo.walk.calls.map (·.depth) = [0, 1, 2] := by
  decide

end LinOpt.Search
