import LinOpt.Proofs.Search.Reach
import LinOpt.Search.OfProgram

namespace LinOpt.Search

theorem natAbs_mul_le {c l u v : Int} (hl : l ≤ v) (hu : v ≤ u) :
    (c * v).natAbs ≤ max (c * l).natAbs (c * u).natAbs := by
  have := mul_within (c := c) hl hu
  omega

theorem natAbs_reach_le (cs : List Int) (ds : List Domain) :
    (reach cs ds).low.natAbs ≤ sizeBound cs ds ∧ (reach cs ds).high.natAbs ≤ sizeBound cs ds := by
  induction cs generalizing ds with
  | nil => simp [reach, sizeBound]
  | cons c cs ih =>
      cases ds with
      | nil => simp [reach, sizeBound]
      | cons d ds =>
          have := ih ds
          simp only [reach, sizeBound]
          omega

theorem natAbs_dot_le {ds : List Domain} {x : List Int} (cs : List Int)
    (h : List.Forall₂ Domain.Contains ds x) : (dot cs x).natAbs ≤ sizeBound cs ds := by
  have := reach_encloses cs h
  have := natAbs_reach_le cs ds
  omega

theorem sizeBound_take_drop (cs : List Int) (ds : List Domain) (k : Nat) :
    sizeBound cs (ds.take k) + sizeBound (cs.drop k) (ds.drop k) = sizeBound cs ds := by
  induction k generalizing cs ds with
  | zero => cases cs <;> simp [sizeBound]
  | succ k ih =>
      cases cs with
      | nil => simp [sizeBound]
      | cons c cs =>
          cases ds with
          | nil => simp [sizeBound]
          | cons d ds =>
              have := ih cs ds
              simp only [List.take_succ_cons, List.drop_succ_cons, sizeBound]
              omega

theorem natAbs_headD_mul_le {ds rest : List Domain} {d : Domain} {v : Int} (cs : List Int) (k : Nat)
    (hd : ds.drop k = d :: rest) (hv : d.Contains v) :
    ((cs.drop k).headD 0 * v).natAbs ≤ sizeBound cs ds := by
  have hsum := sizeBound_take_drop cs ds k
  rw [hd] at hsum
  cases hcs : cs.drop k with
  | nil => simp
  | cons c cs' =>
      have := natAbs_mul_le (c := c) hv.1 hv.2
      simp only [hcs, sizeBound, List.headD_cons] at hsum ⊢
      omega

theorem natAbs_dot_add_reach_le {ds : List Domain} {x : List Int} (cs : List Int)
    (h : List.Forall₂ Domain.Contains (ds.take x.length) x) :
    (dot cs x).natAbs ≤ sizeBound cs ds ∧
      (dot cs x + (reach (cs.drop x.length) (ds.drop x.length)).low).natAbs ≤ sizeBound cs ds ∧
      (dot cs x + (reach (cs.drop x.length) (ds.drop x.length)).high).natAbs ≤ sizeBound cs ds := by
  have hsum := sizeBound_take_drop cs ds x.length
  have := natAbs_dot_le cs h
  have := natAbs_reach_le (cs.drop x.length) (ds.drop x.length)
  omega

end LinOpt.Search
