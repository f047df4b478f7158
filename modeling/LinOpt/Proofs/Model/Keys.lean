import LinOpt.Proofs.Double.Order
import LinOpt.Proofs.Model.LookUp

namespace LinOpt

/-- A total order, in which just those tie that are alike. -/
structure Orders {α : Type} (cmp : α → α → Ordering) (alike : α → α → Prop) : Prop where
  total : ∀ a b, (cmp a b).isLE = true ∨ (cmp b a).isLE = true
  swap : ∀ a b, cmp a b = (cmp b a).swap
  antisymm : ∀ a b, (cmp a b).isLE = true → (cmp b a).isLE = true → alike a b
  trans : ∀ a b c, (cmp a b).isLE = true → (cmp b c).isLE = true → (cmp a c).isLE = true
  tie : ∀ a b, cmp a b = .eq ↔ alike a b

theorem Orders.of_tie {α : Type} {cmp : α → α → Ordering} [Std.TransCmp cmp] {alike : α → α → Prop}
    (tie : ∀ a b, cmp a b = .eq ↔ alike a b) : Orders cmp alike where
  total a b := by
    have hswap : cmp b a = (cmp a b).swap := Std.OrientedCmp.eq_swap
    rw [hswap]
    cases cmp a b <;> simp
  swap a b := Std.OrientedCmp.eq_swap
  antisymm a b hab hba := (tie a b).mp (Std.OrientedCmp.isLE_antisymm hab hba)
  trans a b c := Std.TransCmp.isLE_trans
  tie := tie

namespace Double

/-- The order of all patterns: the sign decides, then the magnitude. -/
inductive Precedes (x y : Double) : Prop
  | signs (hx : x.isNegative = true) (hy : y.isNegative = false)
  | negative (hx : x.isNegative = true) (hy : y.isNegative = true) (h : y.magnitude < x.magnitude)
  | positive (hx : x.isNegative = false) (hy : y.isNegative = false) (h : x.magnitude < y.magnitude)

def hashed (x : Double) : UInt64 := x.canonical.bits

variable {x y : Double}

theorem position_lt_position : x.position < y.position ↔ Precedes x y := by
  rw [position, position]
  constructor
  · intro h
    cases hx : x.isNegative <;> cases hy : y.isNegative <;> simp only [hx, hy] at h
    · exact .positive hx hy (by simpa using h)
    · simp at h
      omega
    · exact .signs hx hy
    · exact .negative hx hy (by simpa using h)
  · intro h
    cases h with
    | signs hx hy =>
        rw [if_pos hx, if_neg (by simp [hy])]
        omega
    | negative hx hy h =>
        rw [if_pos hx, if_pos hy]
        omega
    | positive hx hy h =>
        rw [if_neg (by simp [hx]), if_neg (by simp [hy])]
        omega

theorem position_inj : x.position = y.position ↔ x = y := by
  refine ⟨fun h => ?_, congrArg position⟩
  have hparts : x.isNegative = y.isNegative ∧ x.magnitude = y.magnitude := by
    rw [position, position] at h
    cases hx : x.isNegative <;> cases hy : y.isNegative <;> simp [hx, hy] at h ⊢ <;> omega
  rw [← ofParts_isNegative_magnitude x, hparts.1, hparts.2, ofParts_isNegative_magnitude]

theorem same_iff_hashed : Scalar.same x y = true ↔ x.hashed = y.hashed := by
  have hbits : x.canonical = y.canonical ↔ x.hashed = y.hashed := by
    rw [hashed, hashed, ← Double.mk.injEq]
  rw [← hbits, ← position_inj]
  exact beq_iff_eq

end Double

section

variable {S : Type} [Scalar S]

instance : Std.TransCmp (Scalar.compare (S := S)) :=
  inferInstanceAs (Std.TransCmp (compareOn Scalar.rank))

instance : Std.TransCmp (Interval.compare (S := S)) :=
  inferInstanceAs (Std.TransCmp (compareLex (compareOn fun i : Interval S => Scalar.rank i.lower)
    (compareOn fun i : Interval S => Scalar.rank i.upper)))

instance : Std.TransCmp (Variable.compare (S := S)) :=
  inferInstanceAs (Std.TransOrd (Variable S))

theorem Scalar.compare_eq_lt {a b : S} : Scalar.compare a b = .lt ↔ Scalar.rank a < Scalar.rank b :=
  compare_lt_iff_lt

theorem Scalar.compare_eq_eq {a b : S} : Scalar.compare a b = .eq ↔ Scalar.same a b = true :=
  Std.LawfulEqOrd.compare_eq_iff_eq.trans beq_iff_eq.symm

/-- Intervals of bounds that are equal one by one. -/
structure Interval.Alike (i j : Interval S) : Prop where
  lower : Scalar.same i.lower j.lower = true
  upper : Scalar.same i.upper j.upper = true

theorem Interval.compare_eq_eq {i j : Interval S} : i.compare j = .eq ↔ Alike i j := by
  rw [Interval.compare, Ordering.then_eq_eq, Scalar.compare_eq_eq, Scalar.compare_eq_eq]
  exact ⟨fun ⟨hlower, hupper⟩ => ⟨hlower, hupper⟩, fun h => ⟨h.lower, h.upper⟩⟩

inductive Interval.Below (i j : Interval S) : Prop
  | lower (h : Scalar.compare i.lower j.lower = .lt)
  | upper (hlower : Scalar.same i.lower j.lower = true) (h : Scalar.compare i.upper j.upper = .lt)

theorem Interval.compare_eq_lt {i j : Interval S} : i.compare j = .lt ↔ Below i j := by
  rw [Interval.compare, Ordering.then_eq_lt, Scalar.compare_eq_eq]
  constructor
  · rintro (h | ⟨hlower, h⟩)
    · exact .lower h
    · exact .upper hlower h
  · intro h
    cases h with
    | lower h => exact .inl h
    | upper hlower h => exact .inr ⟨hlower, h⟩

theorem VariableKind.rank_inj {k l : VariableKind} : k.rank = l.rank ↔ k = l := by
  cases k <;> cases l <;> decide

/-- Variables with the same name, the same kind and like intervals. -/
structure Variable.Alike (v w : Variable S) : Prop where
  name : v.name = w.name
  interval : v.interval.Alike w.interval
  kind : v.kind = w.kind

theorem Variable.compare_eq_eq {v w : Variable S} : v.compare w = .eq ↔ Alike v w := by
  rw [Variable.compare, Ordering.then_eq_eq, Ordering.then_eq_eq, Interval.compare_eq_eq,
    Std.LawfulEqOrd.compare_eq_iff_eq, Std.LawfulEqOrd.compare_eq_iff_eq, VariableKind.rank_inj]
  exact ⟨fun ⟨hname, hinterval, hkind⟩ => ⟨hname, hinterval, hkind⟩,
    fun h => ⟨h.name, h.interval, h.kind⟩⟩

inductive Variable.Below (v w : Variable S) : Prop
  | name (h : v.name < w.name)
  | interval (hname : v.name = w.name) (h : v.interval.Below w.interval)
  | kind (hname : v.name = w.name) (hinterval : v.interval.Alike w.interval)
      (h : v.kind.rank < w.kind.rank)

theorem Variable.compare_eq_lt {v w : Variable S} : v.compare w = .lt ↔ Below v w := by
  have hname : Ord.compare v.name w.name = .lt ↔ v.name < w.name := compareOfLessAndEq_eq_lt
  have hkind : Ord.compare v.kind.rank w.kind.rank = .lt ↔ v.kind.rank < w.kind.rank :=
    compare_lt_iff_lt
  rw [Variable.compare, Ordering.then_eq_lt, Ordering.then_eq_lt, Interval.compare_eq_lt,
    Interval.compare_eq_eq, Std.LawfulEqOrd.compare_eq_iff_eq, hname, hkind]
  constructor
  · rintro (h | ⟨hname, h | ⟨hinterval, h⟩⟩)
    · exact .name h
    · exact .interval hname h
    · exact .kind hname hinterval h
  · intro h
    cases h with
    | name h => exact .inl h
    | interval hname h => exact .inr ⟨hname, .inl h⟩
    | kind hname hinterval h => exact .inr ⟨hname, .inr ⟨hinterval, h⟩⟩

theorem Variable.same_iff_compare {v w : Variable S} : v.same w = true ↔ v.compare w = .eq :=
  beq_iff_eq

theorem Variable.same_iff {v w : Variable S} : v.same w = true ↔ Alike v w :=
  same_iff_compare.trans compare_eq_eq

end

def Interval.hashed (i : Interval Double) : UInt64 × UInt64 := (i.lower.hashed, i.upper.hashed)

theorem Interval.alike_iff_hashed {i j : Interval Double} : Alike i j ↔ i.hashed = j.hashed := by
  rw [hashed, hashed, Prod.mk.injEq, ← Double.same_iff_hashed, ← Double.same_iff_hashed]
  exact ⟨fun h => ⟨h.lower, h.upper⟩, fun ⟨hlower, hupper⟩ => ⟨hlower, hupper⟩⟩

def Variable.hashed (v : Variable Double) : String × (UInt64 × UInt64) × Nat :=
  (v.name, v.interval.hashed, v.kind.rank)

theorem Variable.alike_iff_hashed {v w : Variable Double} : Alike v w ↔ v.hashed = w.hashed := by
  rw [hashed, hashed, Prod.mk.injEq, Prod.mk.injEq, ← Interval.alike_iff_hashed,
    VariableKind.rank_inj]
  exact ⟨fun h => ⟨h.name, h.interval, h.kind⟩,
    fun ⟨hname, hinterval, hkind⟩ => ⟨hname, hinterval, hkind⟩⟩

namespace Double

variable {x y : Double}

theorem compare_eq_lt_iff_precedes :
    Scalar.compare x y = .lt ↔ Precedes x.canonical y.canonical :=
  Scalar.compare_eq_lt.trans position_lt_position

theorem compare_eq_lt_iff_numLt (hx : x.isNaN = false) (hy : y.isNaN = false) :
    Scalar.compare x y = .lt ↔ x.numLt y = true := by
  have hle : y.units ≤ x.units ↔ Scalar.rank y ≤ Scalar.rank x := units_le_iff
  rw [Scalar.compare_eq_lt, numLt_iff]
  refine ⟨fun h => ⟨hx, hy, ?_⟩, fun h => ?_⟩
  · exact Int.not_le.mp fun hyx => absurd (hle.mp hyx) (Int.not_le.mpr h)
  · exact Int.not_le.mp fun hyx => absurd (hle.mpr hyx) (Int.not_le.mpr h.2.2)

theorem compare_eq_eq_iff_numEq (hx : x.isNaN = false) (hy : y.isNaN = false) :
    Scalar.compare x y = .eq ↔ (x == y) = true := by
  have hxy : x.units ≤ y.units ↔ Scalar.rank x ≤ Scalar.rank y := units_le_iff
  have hyx : y.units ≤ x.units ↔ Scalar.rank y ≤ Scalar.rank x := units_le_iff
  rw [Scalar.compare_eq_eq, Scalar.same, beq_iff_eq, numEq_iff]
  constructor
  · intro h
    exact ⟨hx, hy, by omega⟩
  · intro h
    have := h.2.2
    omega

end Double

namespace Variable

@[reducible]
def keyBEq : BEq (Variable Double) := ⟨same⟩

@[reducible]
def keyHashable (h : String × (UInt64 × UInt64) × Nat → UInt64) : Hashable (Variable Double) :=
  ⟨fun v => h v.hashed⟩

abbrev HashMap (h : String × (UInt64 × UInt64) × Nat → UInt64) (α : Type) :=
  @Std.HashMap (Variable Double) α keyBEq (keyHashable h)

theorem keyBEq_equiv : @EquivBEq (Variable Double) keyBEq :=
  let _ := keyBEq
  { symm := fun h => same_iff_compare.mpr (Std.OrientedCmp.eq_symm (same_iff_compare.mp h))
    trans := fun h h' =>
      same_iff_compare.mpr (Std.TransCmp.eq_trans (same_iff_compare.mp h) (same_iff_compare.mp h'))
    rfl := fun {v} => same_self v }

theorem keyHashable_lawful (h : String × (UInt64 × UInt64) × Nat → UInt64) :
    @LawfulHashable (Variable Double) keyBEq (keyHashable h) :=
  let _ := keyBEq
  let _ := keyHashable h
  { hash_eq := fun _ _ hvw => congrArg h (alike_iff_hashed.mp (same_iff.mp hvw)) }

/-- A map takes the two for one key: it finds the same under both, and under one what it was given
under the other. -/
structure OneKey (v w : Variable Double) : Prop where
  ordered : ∀ {α : Type} (m : OrderedMap (Variable Double) α) (a : α),
    m.get? w = m.get? v ∧ (m.insert v a).get? w = some a
  tree : ∀ {α : Type} (m : Std.TreeMap (Variable Double) α Variable.compare) (a : α),
    m[w]? = m[v]? ∧ (m.insert v a)[w]? = some a
  hash : ∀ {α : Type} (h : String × (UInt64 × UInt64) × Nat → UInt64) (m : HashMap h α) (a : α),
    m[w]? = m[v]? ∧ (m.insert v a)[w]? = some a

theorem Alike.oneKey {v w : Variable Double} (hvw : Alike v w) : OneKey v w where
  ordered m a := by
    have hwv : Ord.compare w v = .eq := Std.OrientedCmp.eq_symm (compare_eq_eq.mpr hvw)
    exact ⟨m.get?_congr hwv, by rw [OrderedMap.get?_insert, if_pos hwv]⟩
  tree m a := by
    have hcmp : v.compare w = .eq := compare_eq_eq.mpr hvw
    refine ⟨(Std.TreeMap.getElem?_congr hcmp).symm, ?_⟩
    rw [Std.TreeMap.getElem?_insert, if_pos hcmp]
  hash h m a := by
    let _ := keyBEq
    have := keyBEq_equiv
    have := keyHashable_lawful h
    have hsame : (v == w) = true := same_iff.mpr hvw
    refine ⟨(Std.HashMap.getElem?_congr hsame).symm, ?_⟩
    rw [Std.HashMap.getElem?_insert, if_pos hsame]

end Variable

/-- Every pattern has its place, those of no number included. -/
structure Double.KeyLaws : Prop where
  orders : Orders (Scalar.compare (S := Double)) fun x y => Scalar.same x y = true
  below : ∀ x y : Double, Scalar.compare x y = .lt ↔ Precedes x.canonical y.canonical
  hashes : ∀ x y : Double, Scalar.same x y = true ↔ x.hashed = y.hashed
  zeros : Scalar.same (-zero) zero = true
  less : ∀ x y : Double, x.isNaN = false → y.isNaN = false →
    (Scalar.compare x y = .lt ↔ x.numLt y = true)
  equal : ∀ x y : Double, x.isNaN = false → y.isNaN = false →
    (Scalar.compare x y = .eq ↔ (x == y) = true)

theorem Double.keyLaws : KeyLaws where
  orders := .of_tie fun _ _ => Scalar.compare_eq_eq
  below _ _ := compare_eq_lt_iff_precedes
  hashes _ _ := same_iff_hashed
  zeros := by decide
  less _ _ := compare_eq_lt_iff_numLt
  equal _ _ := compare_eq_eq_iff_numEq

structure Interval.KeyLaws : Prop where
  orders : Orders (Interval.compare (S := Double)) Alike
  below : ∀ i j : Interval Double, i.compare j = .lt ↔ Below i j
  hashes : ∀ i j : Interval Double, Alike i j ↔ i.hashed = j.hashed

theorem Interval.keyLaws : KeyLaws where
  orders := .of_tie fun _ _ => compare_eq_eq
  below _ _ := compare_eq_lt
  hashes _ _ := alike_iff_hashed

structure Variable.KeyLaws : Prop where
  orders : Orders (Variable.compare (S := Double)) Alike
  below : ∀ v w : Variable Double, v.compare w = .lt ↔ Below v w
  same : ∀ v w : Variable Double, v.same w = true ↔ Alike v w
  hashes : ∀ v w : Variable Double, Alike v w ↔ v.hashed = w.hashed
  oneKey : ∀ v w : Variable Double, Alike v w → OneKey v w

theorem Variable.keyLaws : KeyLaws where
  orders := .of_tie fun _ _ => compare_eq_eq
  below _ _ := compare_eq_lt
  same _ _ := same_iff
  hashes _ _ := alike_iff_hashed
  oneKey _ _ := Alike.oneKey

theorem keys_are_lawful : Double.KeyLaws ∧ Interval.KeyLaws ∧ Variable.KeyLaws :=
  ⟨Double.keyLaws, Interval.keyLaws, Variable.keyLaws⟩

end LinOpt
