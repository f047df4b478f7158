import LinOpt.Double.Text
import LinOpt.Proofs.Double.Parts
import LinOpt.Proofs.Text.Words

namespace LinOpt.Double

theorem digitsValue_eq (ds : List Char) : digitsValue ds = Nat.ofDigitChars 10 ds 0 := rfl

theorem digitsValue_toDigits_zeros (n k : Nat) :
    digitsValue (Nat.toDigits 10 n ++ zeros k) = n * 10 ^ k := by
  rw [digitsValue_eq, Nat.ofDigitChars_append, Nat.ofDigitChars_ten_toDigits, zeros,
    Nat.ofDigitChars_replicate_zero, Nat.mul_comm]

theorem digitsValue_zeros_toDigits (n k : Nat) :
    digitsValue (zeros k ++ Nat.toDigits 10 n) = n := by
  rw [digitsValue_eq, Nat.ofDigitChars_append, zeros, Nat.ofDigitChars_replicate_zero, Nat.mul_zero,
    Nat.ofDigitChars_ten_toDigits]

theorem isDigit_of_mem_zeros {k : Nat} {c : Char} (h : c ∈ zeros k) : c.isDigit = true := by
  rw [List.eq_of_mem_replicate h]
  rfl

theorem isDigit_of_mem_toDigits {n : Nat} {c : Char} (h : c ∈ Nat.toDigits 10 n) :
    c.isDigit = true :=
  Nat.isDigit_of_mem_toDigits (by decide) (by decide) h

inductive Positional : List Char → Prop
  | whole {ds : List Char} (hne : ds ≠ []) (hds : ∀ c ∈ ds, c.isDigit = true) : Positional ds
  | point {ds es : List Char} (hne : ds ≠ []) (hds : ∀ c ∈ ds, c.isDigit = true)
      (hes : ∀ c ∈ es, c.isDigit = true) : Positional (ds ++ '.' :: es)

theorem takeWhile_isDigit {ds : List Char} (hds : ∀ c ∈ ds, c.isDigit = true) :
    ds.takeWhile Char.isDigit = ds := by
  have h : (ds ++ []).takeWhile Char.isDigit = _ := List.takeWhile_append_of_pos hds
  rwa [List.append_nil, List.takeWhile_nil, List.append_nil] at h

theorem dropWhile_isDigit {ds : List Char} (hds : ∀ c ∈ ds, c.isDigit = true) :
    ds.dropWhile Char.isDigit = [] := by
  have h : (ds ++ []).dropWhile Char.isDigit = _ := List.dropWhile_append_of_pos hds
  rwa [List.append_nil, List.dropWhile_nil] at h

theorem readDecimal_whole {ds : List Char} (hne : ds ≠ []) (hds : ∀ c ∈ ds, c.isDigit = true) :
    readDecimal ds = some (readMagnitude (digitsValue ds) 0) := by
  simp [readDecimal, takeWhile_isDigit hds, dropWhile_isDigit hds, fraction, readExponent, hne]

theorem readDecimal_point {ds es : List Char} (hne : ds ≠ []) (hds : ∀ c ∈ ds, c.isDigit = true)
    (hes : ∀ c ∈ es, c.isDigit = true) :
    readDecimal (ds ++ '.' :: es) =
      some (readMagnitude (digitsValue (ds ++ es)) (-(es.length : Int))) := by
  have htake : (ds ++ '.' :: es).takeWhile Char.isDigit = _ := List.takeWhile_append_of_pos hds
  have hdrop : (ds ++ '.' :: es).dropWhile Char.isDigit = _ := List.dropWhile_append_of_pos hds
  rw [List.takeWhile_cons_of_neg (by decide), List.append_nil] at htake
  rw [List.dropWhile_cons_of_neg (by decide)] at hdrop
  simp [readDecimal, htake, hdrop, takeWhile_isDigit hes, dropWhile_isDigit hes, fraction,
    readExponent, hne]

namespace Decimal

variable (d : Decimal)

def padded : List Char :=
  zeros ((-d.exponent).toNat + 1 - (Nat.toDigits 10 d.digits).length) ++ Nat.toDigits 10 d.digits

theorem lt_length_padded : (-d.exponent).toNat < d.padded.length := by
  rw [padded, List.length_append, zeros, List.length_replicate]
  omega

theorem positional_of_nonneg (h : 0 ≤ d.exponent) :
    d.positional = Nat.toDigits 10 d.digits ++ zeros d.exponent.toNat := if_pos h

theorem positional_of_neg (h : ¬ 0 ≤ d.exponent) :
    d.positional = d.padded.take (d.padded.length - (-d.exponent).toNat) ++
      '.' :: d.padded.drop (d.padded.length - (-d.exponent).toNat) := if_neg h

theorem take_padded_ne_nil : d.padded.take (d.padded.length - (-d.exponent).toNat) ≠ [] := by
  have := d.lt_length_padded
  rw [Ne, List.take_eq_nil_iff, not_or]
  exact ⟨by omega, List.ne_nil_of_length_pos (by omega)⟩

theorem isDigit_of_mem_padded {c : Char} (h : c ∈ d.padded) : c.isDigit = true :=
  (List.mem_append.mp h).elim isDigit_of_mem_zeros isDigit_of_mem_toDigits

theorem positional_positional : Positional d.positional := by
  by_cases h : 0 ≤ d.exponent
  · rw [d.positional_of_nonneg h]
    refine .whole (by simp [Nat.toDigits_ne_nil]) fun c hc => ?_
    exact (List.mem_append.mp hc).elim isDigit_of_mem_toDigits isDigit_of_mem_zeros
  · rw [d.positional_of_neg h]
    exact .point d.take_padded_ne_nil
      (fun c hc => d.isDigit_of_mem_padded (List.mem_of_mem_take hc))
      (fun c hc => d.isDigit_of_mem_padded (List.mem_of_mem_drop hc))

theorem readDecimal_positional (hd : d.digits ≠ 0) (he : -1100 ≤ d.exponent) :
    readDecimal d.positional = some (decimalMagnitude d.digits d.exponent) := by
  by_cases h : 0 ≤ d.exponent
  · have hpow : 10 ^ d.exponent.toNat ≠ 0 := Nat.ne_of_gt (Nat.pow_pos (by decide))
    rw [d.positional_of_nonneg h, readDecimal_whole (by simp [Nat.toDigits_ne_nil])
      fun c hc => (List.mem_append.mp hc).elim isDigit_of_mem_toDigits isDigit_of_mem_zeros,
      digitsValue_toDigits_zeros, readMagnitude, if_neg (Nat.mul_ne_zero hd hpow), if_neg (by decide),
      if_neg (by omega)]
    simp [decimalMagnitude, h]
  · have hlen := d.lt_length_padded
    rw [d.positional_of_neg h, readDecimal_point d.take_padded_ne_nil
      (fun c hc => d.isDigit_of_mem_padded (List.mem_of_mem_take hc))
      (fun c hc => d.isDigit_of_mem_padded (List.mem_of_mem_drop hc)),
      List.take_append_drop, padded, digitsValue_zeros_toDigits, ← padded, List.length_drop]
    have hexp : -((d.padded.length - (d.padded.length - (-d.exponent).toNat) : Nat) : Int) =
        d.exponent := by omega
    rw [hexp, readMagnitude, if_neg hd, if_neg (by omega), if_neg (by omega)]

end Decimal

theorem Positional.exists_cons {cs : List Char} (h : Positional cs) :
    ∃ c rest, cs = c :: rest ∧ c.isDigit = true := by
  cases h with
  | whole hne hds =>
      obtain ⟨c, rest, rfl⟩ := List.exists_cons_of_ne_nil hne
      exact ⟨c, rest, rfl, hds c List.mem_cons_self⟩
  | point hne hds _ =>
      obtain ⟨c, rest, rfl⟩ := List.exists_cons_of_ne_nil hne
      exact ⟨c, _, rfl, hds c List.mem_cons_self⟩

theorem isBlank_of_isDigit {c : Char} (h : c.isDigit = true) : Text.isBlank c = false := by
  have hdigit : Text.blanks.any Char.isDigit = false := by decide
  cases hblank : Text.isBlank c with
  | false => rfl
  | true =>
      have hmem : c ∈ Text.blanks := by simpa [Text.isBlank] using hblank
      exact absurd h (List.any_eq_false.mp hdigit c hmem)

theorem Positional.isBlank_eq_false {cs : List Char} (h : Positional cs) :
    ∀ c ∈ cs, Text.isBlank c = false := by
  intro c hc
  cases h with
  | whole _ hds => exact isBlank_of_isDigit (hds c hc)
  | point _ hds hes =>
      rcases List.mem_append.mp hc with hc | hc
      · exact isBlank_of_isDigit (hds c hc)
      · rcases List.mem_cons.mp hc with rfl | hc
        · decide
        · exact isBlank_of_isDigit (hes c hc)

theorem toLower_of_isDigit {c : Char} (h : c.isDigit = true) : c.toLower = c := by
  simp only [Char.isDigit, Bool.and_eq_true, decide_eq_true_eq] at h
  have hupper : ¬ (c.val ≥ 'A'.val ∧ c.val ≤ 'Z'.val) := by
    rintro ⟨h', -⟩
    exact absurd (UInt32.le_trans h' h.2) (by decide)
  exact dif_neg hupper

theorem readUnsigned_of_isDigit {c : Char} {cs : List Char} (h : c.isDigit = true) :
    readUnsigned (c :: cs) = readDecimal (c :: cs) := by
  have hword (w : List Char) (e : Char) (he : e.isDigit = false) :
      (c :: cs).map Char.toLower ≠ e :: w := by
    rw [List.map_cons, toLower_of_isDigit h]
    rintro heq
    cases heq
    rw [h] at he
    cases he
  rw [readUnsigned, if_neg (by simp only [not_or]; exact ⟨hword _ _ rfl, hword _ _ rfl⟩), if_neg (hword _ _ rfl)]

theorem splitSign_of_isDigit {c : Char} {cs : List Char} (h : c.isDigit = true) :
    splitSign (c :: cs) = (false, c :: cs) := by
  rw [splitSign]
  · rintro _ heq
    cases heq
    cases h
  · rintro _ heq
    cases heq
    cases h

theorem exponent_of_mem_neighbours {m : Nat} {e : Int} {d : Decimal} (h : d ∈ neighbours m e) :
    d.exponent = e := by
  rw [neighbours] at h
  generalize (if 0 ≤ e then m else m * 10 ^ (-e).toNat) = num at h
  generalize (if 0 ≤ e then scale * 10 ^ e.toNat else scale) = den at h
  by_cases hlow : 2 * (num % den) < den
  · rw [if_pos hlow] at h
    simp only [List.mem_cons, List.not_mem_nil, or_false] at h
    rcases h with rfl | rfl <;> rfl
  · rw [if_neg hlow] at h
    simp only [List.mem_cons, List.not_mem_nil, or_false] at h
    rcases h with rfl | rfl <;> rfl

theorem decimalMagnitude_of_neg {n k : Nat} (hk : 0 < k) :
    decimalMagnitude n (-(k : Int)) = nearestMagnitude (n * scale) (10 ^ k) := by
  rw [decimalMagnitude, if_neg (by omega), Int.neg_neg, Int.toNat_natCast]

theorem nearestMagnitude_exact {m k : Nat} (hm : m < infinite) :
    nearestMagnitude (unitsOf m * 5 ^ k * 2 ^ k) (10 ^ k) = m := by
  rw [Nat.mul_assoc, ← Nat.mul_pow]
  exact nearestMagnitude_unitsOf hm (Nat.pow_pos (by decide))

theorem decimalMagnitude_exact {m : Nat} (hm : m < infinite) :
    decimalMagnitude (unitsOf m * 5 ^ 1074) (-1074) = m := by
  have hneg := decimalMagnitude_of_neg (n := unitsOf m * 5 ^ 1074) (k := 1074) (by decide)
  have hexact := nearestMagnitude_exact (k := 1074) hm
  rw [← scale] at hexact
  exact hneg.trans hexact

theorem shortestFrom_spec {m : Nat} (hm : m < infinite) {e : Int} {steps : Nat}
    (he : -1100 + steps ≤ e) :
    decimalMagnitude (shortestFrom m e steps).digits (shortestFrom m e steps).exponent = m ∧
      -1100 ≤ (shortestFrom m e steps).exponent := by
  induction steps generalizing e with
  | zero => exact ⟨decimalMagnitude_exact hm, show (-1100 : Int) ≤ -1074 by decide⟩
  | succ steps ih =>
      rw [shortestFrom]
      split
      · rename_i d hd
        have hmem := exponent_of_mem_neighbours (List.mem_of_find?_eq_some hd)
        exact ⟨by simpa using List.find?_some hd, by omega⟩
      · exact ih (by omega)

theorem shortest_spec {m : Nat} (hm : m < infinite) :
    decimalMagnitude (shortest m).digits (shortest m).exponent = m ∧
      -1100 ≤ (shortest m).exponent :=
  shortestFrom_spec hm (by omega)

theorem decimalMagnitude_zero (e : Int) : decimalMagnitude 0 e = 0 := by
  have hzero (k : Nat) (hk : 0 < k) : nearestMagnitude 0 k = 0 := by
    have := nearestMagnitude_unitsOf (m := 0) (by decide) hk
    rwa [show unitsOf 0 = 0 from rfl, Nat.zero_mul] at this
  rw [decimalMagnitude]
  split
  · rw [Nat.zero_mul, Nat.zero_mul]
    exact hzero 1 (by decide)
  · rw [Nat.zero_mul]
    exact hzero _ (Nat.pow_pos (by decide))

theorem readUnsigned_magnitudeText {m : Nat} (hm : m ≤ infinite) :
    readUnsigned (magnitudeText m) = some m := by
  rw [magnitudeText]
  split
  case isTrue h =>
    rw [h, readUnsigned_of_isDigit rfl, readDecimal_whole (by simp) (by simp)]
    rfl
  case isFalse hzero =>
    split
    case isTrue h =>
      rw [h]
      rfl
    case isFalse hinf =>
      obtain ⟨hback, hexp⟩ := shortest_spec (Nat.lt_of_le_of_ne hm hinf)
      have hdigits : (shortest m).digits ≠ 0 := by
        intro h
        rw [h, decimalMagnitude_zero] at hback
        exact hzero hback.symm
      obtain ⟨c, rest, hcs, hc⟩ := (shortest m).positional_positional.exists_cons
      have hread := (shortest m).readDecimal_positional hdigits hexp
      rw [hcs] at hread ⊢
      rw [readUnsigned_of_isDigit hc, hread, hback]

theorem splitSign_magnitudeText (m : Nat) :
    splitSign (magnitudeText m) = (false, magnitudeText m) := by
  rw [magnitudeText]
  split
  · rfl
  · split
    · rfl
    · obtain ⟨c, rest, hcs, hc⟩ := (shortest m).positional_positional.exists_cons
      rw [hcs]
      exact splitSign_of_isDigit hc

theorem magnitudeText_ne_nil (m : Nat) : magnitudeText m ≠ [] := by
  rw [magnitudeText]
  split
  · exact List.cons_ne_nil _ _
  · split
    · exact List.cons_ne_nil _ _
    · obtain ⟨c, rest, hcs, -⟩ := (shortest m).positional_positional.exists_cons
      rw [hcs]
      exact List.cons_ne_nil _ _

theorem isBlank_of_mem_magnitudeText (m : Nat) : ∀ c ∈ magnitudeText m, Text.isBlank c = false := by
  rw [magnitudeText]
  split
  · exact (Text.isWord_iff.mp (show Text.isWord "0" = true by decide)).2
  · split
    · exact (Text.isWord_iff.mp (show Text.isWord "inf" = true by decide)).2
    · exact (shortest m).positional_positional.isBlank_eq_false

theorem isWord_text (x : Double) : Text.isWord x.text = true := by
  rw [text]
  split
  · decide
  · rw [Text.isWord_iff, String.toList_ofList]
    split
    · refine ⟨List.cons_ne_nil _ _, fun c hc => ?_⟩
      rcases List.mem_cons.mp hc with rfl | hc
      · decide
      · exact isBlank_of_mem_magnitudeText _ c hc
    · exact ⟨magnitudeText_ne_nil _, isBlank_of_mem_magnitudeText _⟩

theorem isWord_append_toString {w : String} (hw : Text.isWord w = true) (k : Nat) :
    Text.isWord (w ++ toString k) = true := by
  have htext : (w ++ toString k).toList = w.toList ++ Nat.toDigits 10 k := by
    rw [String.toList_append]
    exact congrArg (w.toList ++ ·) String.toList_ofList
  obtain ⟨hne, hblank⟩ := Text.isWord_iff.mp hw
  rw [Text.isWord_iff, htext]
  refine ⟨List.append_ne_nil_of_left_ne_nil hne _, fun c hc => ?_⟩
  rcases List.mem_append.mp hc with hc | hc
  · exact hblank c hc
  · exact isBlank_of_isDigit (isDigit_of_mem_toDigits hc)

/-- The text of a number reads back as the number, bit by bit. -/
theorem parse?_text {x : Double} (hx : x.isNaN = false) : parse? x.text = some x := by
  have hread := readUnsigned_magnitudeText (magnitude_le_of_not_isNaN hx)
  have hparts := ofParts_isNegative_magnitude x
  rw [text, hx, if_neg (by decide), parse?, String.toList_ofList]
  cases hneg : x.isNegative with
  | true =>
      rw [hneg] at hparts
      simp [splitSign, hread, hparts]
  | false =>
      rw [hneg] at hparts
      simp [splitSign_magnitudeText, hread, hparts]

end LinOpt.Double
