import LinOpt.Search.Basic

namespace LinOpt.Search

variable {t : Task}

namespace Task

/-- The clock was asked for the `k`-th time before the search got to `s`. -/
def Asked (s : State) (k : Nat) : Prop := 1 ≤ k ∧ k * nodesPerCheck ≤ s.nodes

def Clocked (t : Task) (s : State) : Prop := s.stopped = true ↔ ∃ k, Asked s k ∧ t.clock k = true

end Task

theorem visit_clocked {s : State} (h : t.Clocked s) : t.Clocked (t.visit s) := by
  -- one more node asks the clock at most once
  have hstep (k : Nat) : Task.Asked (t.visit s) k ↔
      Task.Asked s k ∨ (k = (s.nodes + 1) / nodesPerCheck ∧ (s.nodes + 1) % nodesPerCheck = 0) := by
    simp only [Task.Asked, Task.visit, nodesPerCheck]
    omega
  simp only [Task.Clocked, hstep, or_and_right, exists_or] at h ⊢
  rw [← h]
  simp only [Task.visit, Bool.or_eq_true, Bool.and_eq_true, beq_iff_eq, nodesPerCheck]
  constructor
  · rintro (hs | ⟨hn, hc⟩)
    · exact .inl hs
    · exact .inr ⟨_, ⟨rfl, hn⟩, hc⟩
  · rintro (hs | ⟨k, ⟨rfl, hn⟩, hc⟩)
    · exact .inl hs
    · exact .inr ⟨hn, hc⟩

theorem tryValues_preserves {P : State → Prop} {f : Int → State → State}
    (hf : ∀ v s, P s → P (f v s)) (v : Int) (n : Nat) {s : State} (hs : P s) :
    P (Task.tryValues f v n s) := by
  induction n generalizing v s with
  | zero => exact hs
  | succ n ih =>
      rw [Task.tryValues]
      split
      · exact hf v s hs
      · exact ih (v + 1) (hf v s hs)

theorem explore_preserves {P : State → Prop} (hvisit : ∀ s, P s → P (t.visit s))
    (hrecord : ∀ s, P s → P (t.record s)) (hchoose : ∀ l v s, P s → P (Task.choose l v s))
    (htakeBack : ∀ l v s, P s → P (Task.takeBack l v s)) (ls : List Level) {s : State} (hs : P s) :
    P (t.explore ls s) := by
  induction ls generalizing s with
  | nil =>
      rw [Task.explore]
      split
      · exact hvisit s hs
      · exact hrecord _ (hvisit s hs)
  | cons l ls ih =>
      rw [Task.explore]
      split
      · exact hvisit s hs
      · refine tryValues_preserves (fun v s hs => htakeBack l v _ ?_) _ _ (hvisit s hs)
        split
        · exact ih (hchoose l v s hs)
        · exact hchoose l v s hs

theorem explore_clocked (ls : List Level) {s : State} (h : t.Clocked s) :
    t.Clocked (t.explore ls s) :=
  explore_preserves (P := t.Clocked) (fun _ => visit_clocked) (fun _ => id) (fun _ _ _ => id)
    (fun _ _ _ => id) ls h

theorem final_clocked (t : Task) : t.Clocked t.final := by
  have hstart : t.Clocked t.start := by
    simp only [Task.Clocked, Task.Asked, Task.start, Bool.false_eq_true, false_iff, nodesPerCheck]
    omega
  rw [Task.final]
  split
  · exact explore_clocked _ hstart
  · exact hstart

theorem final_not_stopped (h : ∀ k, Task.Asked t.final k → t.clock k = false) :
    t.final.stopped = false := by
  cases hs : t.final.stopped with
  | false => rfl
  | true =>
      obtain ⟨k, hk, hc⟩ := (final_clocked t).mp hs
      exact hc.symm.trans (h k hk)

end LinOpt.Search
