import LinOpt.Scalar.Basic
import Mathlib.Data.List.Perm.Basic

namespace LinOpt

class CommutativeScalar (C : Type) [Scalar C] : Prop where
  add_comm (a b : C) : a + b = b + a
  add_assoc (a b c : C) : a + b + c = a + (b + c)
  zero_add (a : C) : Scalar.zero + a = a

instance : CommutativeScalar Int64 where
  add_comm := Int64.add_comm
  add_assoc := Int64.add_assoc
  zero_add := Int64.zero_add

instance : CommutativeScalar Bit where
  add_comm := by
    rintro ⟨a⟩ ⟨b⟩
    exact congrArg Bit.mk (Bool.xor_comm a b)
  add_assoc := by
    rintro ⟨a⟩ ⟨b⟩ ⟨c⟩
    exact congrArg Bit.mk (Bool.xor_assoc a b c)
  zero_add := by
    rintro ⟨a⟩
    exact congrArg Bit.mk (Bool.false_xor a)

namespace Scalar

variable {C : Type} [Scalar C]

def sum (cs : List C) : C := cs.foldr (· + ·) zero

def sum? (cs : List C) : Option C := if cs.isEmpty then none else some (sum cs)

theorem isSome_sum? {cs : List C} : (sum? cs).isSome = true ↔ cs ≠ [] := by
  cases cs with
  | nil => simp [sum?]
  | cons c cs => simp [sum?]

variable [CommutativeScalar C]

theorem add_zero (a : C) : a + zero = a := by
  rw [CommutativeScalar.add_comm, CommutativeScalar.zero_add]

theorem sum_append (cs ds : List C) : sum (cs ++ ds) = sum cs + sum ds := by
  induction cs with
  | nil => exact (CommutativeScalar.zero_add _).symm
  | cons c cs ih =>
      show c + sum (cs ++ ds) = c + sum cs + sum ds
      rw [ih, CommutativeScalar.add_assoc]

theorem sum?_append (cs ds : List C) :
    sum? (cs ++ ds) = Option.merge (· + ·) (sum? cs) (sum? ds) := by
  cases cs with
  | nil => exact Option.merge_none_left.symm
  | cons c cs =>
      cases ds with
      | nil =>
          rw [List.append_nil]
          exact Option.merge_none_right.symm
      | cons d ds => exact congrArg some (sum_append (c :: cs) (d :: ds))

theorem sum?_singleton (c : C) : sum? [c] = some c := congrArg some (add_zero c)

theorem sum?_toList (c : Option C) : sum? c.toList = c := by
  cases c with
  | none => rfl
  | some c => exact sum?_singleton c

theorem sum_perm {cs ds : List C} (h : cs.Perm ds) : sum cs = sum ds := by
  induction h with
  | nil => rfl
  | cons c _ ih => exact congrArg (c + ·) ih
  | swap c d cs =>
      show d + (c + sum cs) = c + (d + sum cs)
      rw [← CommutativeScalar.add_assoc, CommutativeScalar.add_comm d, CommutativeScalar.add_assoc]
  | trans _ _ ih ih' => exact ih.trans ih'

theorem sum?_perm {cs ds : List C} (h : cs.Perm ds) : sum? cs = sum? ds := by
  rw [sum?, sum?, sum_perm h, h.isEmpty_eq]

end Scalar

end LinOpt
