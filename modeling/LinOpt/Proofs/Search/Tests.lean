import LinOpt.Proofs.Search.Clock
import LinOpt.Proofs.Search.NoOverflow
import LinOpt.Proofs.Search.Restored
import LinOpt.Proofs.Search.Tally

namespace LinOpt.Search

/-- A state that is tested before the call at this depth. -/
structure Test where
  depth : Nat
  board : Board

def Call.test (c : Call) : Test := ⟨c.depth, c.entry⟩

namespace Task

variable (t : Task)

def passes (e : Test) : Bool := t.consistent e.depth e.board && t.canImprove e.depth e.board

def attemptTests (k : Nat) (below : Board → List Test) (v : Int) (b : Board) : List Test :=
  let e : Test := ⟨k + 1, b.assign t.problem k v 1⟩
  e :: if t.passes e then below e.board else []

def attemptsTests (f : Int → Board → Walk) (g : Int → Board → List Test) (v : Int) :
    Nat → Board → List Test
  | 0, _ => []
  | n + 1, b =>
    let w := f v b
    g v b ++ if w.goesOn then attemptsTests f g (v + 1) n w.board else []

def descendTests : List Domain → Nat → Board → List Test
  | [], _, _ => []
  | d :: ds, k, b =>
    let counted := { b with nodes := b.nodes + 1 }
    if t.timeUp counted.nodes then []
    else attemptsTests (t.attempt k (t.descend ds (k + 1)))
      (t.attemptTests k (descendTests ds (k + 1))) d.lower d.size counted

/-- At the root nothing has been found yet that an objective could be compared with. -/
def tests : List Test :=
  let b := Board.start t.problem
  ⟨0, b⟩ :: if t.consistent 0 b then t.descendTests t.problem.domains 0 b else []

def attemptWith (answer : Test → Bool) (k : Nat) (below : Board → Walk) (v : Int) (b : Board) :
    Walk :=
  let e : Test := ⟨k + 1, b.assign t.problem k v 1⟩
  let w := if answer e then below e.board else ⟨true, e.board, []⟩
  { w with board := w.board.assign t.problem k v (-1) }

def descendWith (answer : Test → Bool) : List Domain → Nat → Board → Walk
  | [], k, b => t.enter k b fun b => ⟨true, b.record t.problem, []⟩
  | d :: ds, k, b =>
    t.enter k b (attempts (t.attemptWith answer k (descendWith answer ds (k + 1))) d.lower d.size)

def walkWith (answer : Test → Bool) : Walk :=
  let b := Board.start t.problem
  if answer ⟨0, b⟩ then t.descendWith answer t.problem.domains 0 b else ⟨true, b, []⟩

/-- These are the states that the search tests: it makes a call for each one that passes, and it is
the same search however any other state would be answered. -/
structure AsksOnly (es : List Test) : Prop where
  calls : t.walk.calls.map Call.test = es.filter t.passes
  elsewhere : ∀ answer : Test → Bool, (∀ e ∈ es, answer e = t.passes e) →
    t.walkWith answer = t.walk

end Task

variable {t : Task} {p : Problem} {k : Nat} {b : Board}

theorem attempt_eq_attemptWith (below : Board → Walk) (v : Int) (b : Board) :
    t.attempt k below v b = t.attemptWith t.passes k below v b := rfl

theorem calls_attempt {below : Board → Walk} {tests : Board → List Test} {v : Int}
    (h : ∀ b, (below b).calls.map Call.test = ⟨k + 1, b⟩ :: (tests b).filter t.passes) :
    (t.attempt k below v b).calls.map Call.test =
      (t.attemptTests k tests v b).filter t.passes := by
  rw [attempt_eq_attemptWith, Task.attemptTests, List.filter_cons, Task.attemptWith]
  cases t.passes ⟨k + 1, b.assign t.problem k v 1⟩ with
  | true => exact h _
  | false => rfl

theorem calls_attempts {f : Int → Board → Walk} {g : Int → Board → List Test}
    (h : ∀ v b, (f v b).calls.map Call.test = (g v b).filter t.passes) (v : Int) (n : Nat) :
    (Task.attempts f v n b).calls.map Call.test =
      (Task.attemptsTests f g v n b).filter t.passes := by
  induction n generalizing v b with
  | zero => rfl
  | succ n ih =>
      rw [Task.attempts, Task.attemptsTests, List.filter_append, ← h]
      cases hgo : (f v b).goesOn with
      | true => simp only [if_true, List.map_append, ih]
      | false => simp

theorem calls_descend (ds : List Domain) (k : Nat) (b : Board) :
    (t.descend ds k b).calls.map Call.test =
      ⟨k, b⟩ :: (t.descendTests ds k b).filter t.passes := by
  induction ds generalizing k b with
  | nil =>
      rw [Task.descend, Task.descendTests, Task.enter]
      cases t.timeUp (b.nodes + 1) <;> rfl
  | cons d ds ih =>
      rw [Task.descend, Task.descendTests, Task.enter]
      cases t.timeUp (b.nodes + 1) with
      | true => rfl
      | false =>
          have hcalls := calls_attempts (t := t) (b := { b with nodes := b.nodes + 1 })
            (fun v b => calls_attempt (b := b) (v := v) (ih (k + 1))) d.lower d.size
          exact congrArg (⟨k, b⟩ :: ·) hcalls

theorem passes_root (t : Task) :
    t.passes ⟨0, Board.start t.problem⟩ = t.consistent 0 (Board.start t.problem) := by
  have himprove : t.canImprove 0 (Board.start t.problem) = true := by
    simp [Task.canImprove, Board.start]
  rw [Task.passes, himprove, Bool.and_true]

theorem calls_walk (t : Task) : t.walk.calls.map Call.test = t.tests.filter t.passes := by
  rw [Task.walk, Task.tests, List.filter_cons, passes_root]
  cases t.consistent 0 (Board.start t.problem) with
  | true => exact calls_descend _ _ _
  | false => rfl

section Answers

variable {answer : Test → Bool}

theorem attemptWith_eq {below below' : Board → Walk} {tests : Board → List Test} {v : Int}
    (hbelow : ∀ b, (∀ e ∈ tests b, answer e = t.passes e) → below' b = below b)
    (h : ∀ e ∈ t.attemptTests k tests v b, answer e = t.passes e) :
    t.attemptWith answer k below' v b = t.attempt k below v b := by
  obtain ⟨hown, hrest⟩ := List.forall_mem_cons.mp h
  rw [attempt_eq_attemptWith, Task.attemptWith, Task.attemptWith, hown]
  cases hpass : t.passes ⟨k + 1, b.assign t.problem k v 1⟩ with
  | true =>
      rw [hpass, if_pos rfl] at hrest
      simp only [if_true, hbelow _ hrest]
  | false => rfl

theorem attempts_eq {f f' : Int → Board → Walk} {g : Int → Board → List Test}
    (hf : ∀ v b, (∀ e ∈ g v b, answer e = t.passes e) → f' v b = f v b) {v : Int} {n : Nat}
    (h : ∀ e ∈ Task.attemptsTests f g v n b, answer e = t.passes e) :
    Task.attempts f' v n b = Task.attempts f v n b := by
  induction n generalizing v b with
  | zero => rfl
  | succ n ih =>
      rw [Task.attemptsTests] at h
      obtain ⟨hv, hrest⟩ := List.forall_mem_append.mp h
      rw [Task.attempts, Task.attempts, hf v b hv]
      cases hgo : (f v b).goesOn with
      | true =>
          rw [hgo, if_pos rfl] at hrest
          simp only [if_true, ih hrest]
      | false => simp

theorem descendWith_eq (ds : List Domain) (k : Nat) (b : Board)
    (h : ∀ e ∈ t.descendTests ds k b, answer e = t.passes e) :
    t.descendWith answer ds k b = t.descend ds k b := by
  induction ds generalizing k b with
  | nil => rfl
  | cons d ds ih =>
      rw [Task.descendTests] at h
      rw [Task.descendWith, Task.descend, Task.enter, Task.enter]
      cases htime : t.timeUp (b.nodes + 1) with
      | true => rfl
      | false =>
          simp only [htime, Bool.false_eq_true, if_false] at h
          have hwalk := attempts_eq (fun v b => attemptWith_eq (ih (k + 1))) h
          simp only [Bool.false_eq_true, if_false, hwalk]

theorem walkWith_eq (h : ∀ e ∈ t.tests, answer e = t.passes e) : t.walkWith answer = t.walk := by
  obtain ⟨hroot, hrest⟩ := List.forall_mem_cons.mp h
  rw [Task.walkWith, Task.walk, hroot, passes_root]
  cases hpass : t.consistent 0 (Board.start t.problem) with
  | true =>
      rw [hpass, if_pos rfl] at hrest
      exact descendWith_eq _ _ _ hrest
  | false => rfl

end Answers

theorem asksOnly_tests (t : Task) : t.AsksOnly t.tests := ⟨calls_walk t, fun _ => walkWith_eq⟩

/-- A state that the search comes to at depth `k`. -/
structure Reached (p : Problem) (k : Nat) (b : Board) : Prop extends Ready p k b where
  inDomains : List.Forall₂ Domain.Contains (p.domains.take k) (b.values.take k)
  current : (b.view k).tally.Current p

theorem Board.inDomains_view (hk : k ≤ b.values.length) :
    List.Forall₂ Domain.Contains (p.domains.take (b.view k).point.length) (b.view k).point ↔
      List.Forall₂ Domain.Contains (p.domains.take k) (b.values.take k) := by
  rw [State.length_point, Board.length_chosen hk, Board.point_view]

namespace Reached

theorem assign {d : Domain} {ds : List Domain} {v : Int} (h : Reached t.problem k b)
    (hd : t.problem.domains.drop k = d :: ds) (hv : d.Contains v) :
    Reached t.problem (k + 1) (b.assign t.problem k v 1) := by
  have hk := lt_length_of_drop hd
  have hlt : k < b.values.length := h.length.symm ▸ hk
  have hready := ready_assign h.toReady hk d v
  have hwithin : (b.view k).Within t.problem :=
    ⟨h.tracks, (Board.inDomains_view (Nat.le_of_lt hlt)).mpr h.inDomains⟩
  have hchosen := Board.length_chosen (Nat.le_of_lt hlt)
  have hnext := hwithin.choose (hchosen.symm ▸ hd) hv
  rw [hchosen, ← Board.view_assign hlt] at hnext
  exact ⟨hready, (Board.inDomains_view (hready.length ▸ hready.depth_le)).mp hnext.inDomains,
    h.current⟩

theorem walked {s : State} {w : Walk} (h : Reached t.problem k b) (hw : Walked t k b s w)
    (hgo : w.goesOn = true) (hs : s.tally.Current t.problem) : Reached t.problem k w.board where
  toReady := hw.ready h.toReady (by rw [← Bool.not_eq_true', ← hw.goesOn, hgo])
  inDomains := hw.kept ▸ h.inDomains
  current := hw.view ▸ hs

end Reached

theorem explore_current (ls : List Level) {s : State} (h : s.tally.Current t.problem) :
    (t.explore ls s).tally.Current t.problem :=
  explore_preserves (P := fun s => s.tally.Current t.problem) (fun _ => id) (fun _ _ => rfl)
    (fun _ _ _ => id) (fun _ _ _ => id) ls h

theorem reached_attempt {d : Domain} {ds : List Domain} {v : Int} (h : Reached t.problem k b)
    (hd : t.problem.domains.drop k = d :: ds)
    (hgo : (t.attempt k (t.descend ds (k + 1)) v b).goesOn = true) :
    Reached t.problem k (t.attempt k (t.descend ds (k + 1)) v b).board := by
  have hbelow (b' : Board) (hb : Ready t.problem (k + 1) b') :=
    descend_walked hb (drop_succ_of_drop hd)
  refine h.walked (attempt_walked h.toReady (lt_length_of_drop hd) d hbelow v) hgo ?_
  split
  · exact explore_current (s := Task.choose _ v _) _ h.current
  · exact h.current

theorem reached_attemptsTests {f : Int → Board → Walk} {g : Int → Board → List Test} {v : Int}
    {n : Nat}
    (hf : ∀ v b, Reached p k b → (f v b).goesOn = true → Reached p k (f v b).board)
    (hg : ∀ w, v ≤ w → w < v + n → ∀ b, Reached p k b → ∀ e ∈ g w b, Reached p e.depth e.board)
    (h : Reached p k b) : ∀ e ∈ Task.attemptsTests f g v n b, Reached p e.depth e.board := by
  induction n generalizing v b with
  | zero => exact List.forall_mem_nil _
  | succ n ih =>
      rw [Task.attemptsTests]
      refine List.forall_mem_append.mpr ⟨hg v (Int.le_refl v) (by omega) b h, ?_⟩
      -- the next value is tried only if the walk goes on, and then from a state like this one
      split
      · exact ih (fun w hl hu => hg w (by omega) (by omega)) (hf v b h ‹_›)
      · exact List.forall_mem_nil _

theorem reached_descendTests {ds : List Domain} (h : Reached t.problem k b)
    (hds : t.problem.domains.drop k = ds) :
    ∀ e ∈ t.descendTests ds k b, Reached t.problem e.depth e.board := by
  induction ds generalizing k b with
  | nil => exact List.forall_mem_nil _
  | cons d ds ih =>
      have hds' : t.problem.domains.drop (k + 1) = ds := drop_succ_of_drop hds
      rw [Task.descendTests]
      split
      · exact List.forall_mem_nil _
      · refine reached_attemptsTests (fun v b hb => reached_attempt hb hds) ?_ (b := _) ?_
        · intro v hl hu b hb
          have hv : d.Contains v := by
            simp only [Domain.size] at hu
            exact ⟨hl, by omega⟩
          have hb' := hb.assign hds hv
          refine List.forall_mem_cons.mpr ⟨hb', ?_⟩
          split
          · exact ih hb' hds'
          · exact List.forall_mem_nil _
        · exact ⟨⟨h.depth_le, h.length, ⟨h.tracks.activity, h.tracks.cost⟩, h.stopped⟩, h.inDomains,
            h.current⟩

theorem reached_tests (t : Task) : ∀ e ∈ t.tests, Reached t.problem e.depth e.board := by
  have hstart : Reached t.problem 0 (Board.start t.problem) :=
    ⟨start_ready t, .nil, rfl⟩
  refine List.forall_mem_cons.mpr ⟨hstart, ?_⟩
  split
  · exact reached_descendTests hstart rfl
  · exact List.forall_mem_nil _

end LinOpt.Search
