import LinOpt.Proofs.Mps.Columns
import LinOpt.Proofs.Mps.ReadsBack

namespace LinOpt.Mps

def rhsGiven (r : Row) : List Double := (rowRhs r).toList.filter fun x => !(x == .zero)

def rangeGiven (r : Row) : List Double := (rowRange r).toList

def setRhs (x : Double) (r : OpenRow) : OpenRow := { r with rhs := x }

def setRange (x : Double) (r : OpenRow) : OpenRow := { r with range := some x }

section

variable {r : Row}

theorem isNaN_of_mem_rhsGiven : ∀ x ∈ rhsGiven r, x.isNaN = false := by
  intro x hx
  have hrhs : rowRhs r = some x := Option.mem_toList.mp (List.mem_filter.mp hx).1
  rw [rowRhs] at hrhs
  split at hrhs
  case isTrue heq => exact Option.some.inj hrhs ▸ (Double.numEq_iff.mp heq).1
  case isFalse =>
    split at hrhs
    case isTrue hlower => exact Option.some.inj hrhs ▸ Double.isNaN_of_isFinite hlower
    case isFalse =>
      split at hrhs
      case isTrue hupper => exact Option.some.inj hrhs ▸ Double.isNaN_of_isFinite hupper
      case isFalse => cases hrhs

theorem isNaN_of_mem_rangeGiven : ∀ x ∈ rangeGiven r, x.isNaN = false := by
  intro x hx
  have hrange : rowRange r = some x := Option.mem_toList.mp hx
  rw [rowRange] at hrange
  split at hrange
  case isTrue hfinite =>
    simp only [Bool.and_eq_true, Bool.not_eq_true'] at hfinite
    obtain ⟨⟨-, hl⟩, hu⟩ := hfinite
    exact Option.some.inj hrange ▸ Double.isNaN_sub hu hl
  case isFalse => cases hrange

end

theorem rhsLines_eq (r : Row) :
    ((rowRhs r).map (rhsLine r.name)).getD [] =
      (rhsGiven r).map fun x => record "RHS" r.name x.text := by
  rw [rhsGiven]
  cases rowRhs r with
  | none => rfl
  | some x =>
      rw [Option.map_some, Option.getD_some, rhsLine, Option.toList_some]
      by_cases h : x == .zero
      · simp [h]
      · simp [h]

theorem rhsPart_eq (p : Program) :
    rhsPart p = (if p.offset == .zero then [] else [record "RHS" objectiveName (-p.offset).text]) ++
      (entriesOf rhsGiven p.rows).map fun e => record "RHS" e.1 e.2.text := by
  simp only [rhsPart, rhsLines_eq, entriesOf, List.map_flatMap, List.map_map]
  rfl

theorem isWord_rhs : Text.isWord "RHS" = true := by decide

theorem isWord_rng : Text.isWord "RNG" = true := by decide

namespace Reading

variable {d : Reading}

theorem setEntries_three (part : Section) (a b c : String) :
    setEntries part [a, b, c] = .ok [(b, c)] := by
  simp [setEntries, pairs]

theorem line_rhs {name word : String} {x : Double} (hpart : d.part = .rhs)
    (hx : toNumber word = .ok x) :
    d.line ⟨true, ["RHS", name, word]⟩ =
      if d.isObjective name then .ok { d with offset := -x }
      else d.changeRow name (setRhs x) := by
  have hentry : d.line ⟨true, ["RHS", name, word]⟩ = rhsEntry d (name, word) := by
    simp only [line, Reading.record, hpart, if_true, rhsRecord, setEntries_three]
    exact bind_pure (rhsEntry d (name, word))
  rw [hentry, rhsEntry, hx]
  rfl

theorem line_range {name : String} {x : Double} (hpart : d.part = .ranges) (hx : x.isNaN = false) :
    d.line ⟨true, ["RNG", name, x.text]⟩ = d.changeRow name (setRange x) := by
  have hentry : d.line ⟨true, ["RNG", name, x.text]⟩ = rangeEntry d (name, x.text) := by
    simp only [line, Reading.record, hpart, if_true, rangeRecord, setEntries_three]
    exact bind_pure (rangeEntry d (name, x.text))
  rw [hentry, rangeEntry, toNumber_text hx]
  rfl

theorem leads_offset {x y : Double} (hpart : d.part = .rhs)
    (hobjective : d.objectiveRow = some objectiveName) (hxy : toNumber (-x).text = .ok (-y)) :
    Leads d (if x == .zero then [] else [Mps.record "RHS" objectiveName (-x).text])
      { d with offset := if x == .zero then d.offset else y } := by
  by_cases h : x == .zero
  · simp only [h, if_true]
    exact .nil d
  · have hreads := reads_record isWord_rhs isWord_objectiveName (-x).isWord_text
    have hobj : d.isObjective objectiveName = true :=
      (isObjective_eq hobjective objectiveName).trans (beq_self_eq_true objectiveName)
    have hline : d.line ⟨true, ["RHS", objectiveName, (-x).text]⟩ = _ := line_rhs hpart hxy
    rw [hobj, if_pos rfl, Double.neg_neg] at hline
    simp only [if_neg h]
    apply Leads.single hreads hline
    simp [hpart]

theorem leads_rhsPart {p : Program} {y : Double} (hpart : d.part = .rhs)
    (hobjective : d.objectiveRow = some objectiveName)
    (hnames : d.rows.map (·.name) = p.rows.map (·.name))
    (hobj : objectiveName ∉ p.rows.map (·.name)) (hword : ∀ r ∈ p.rows, Text.isWord r.name = true)
    (hoffset : toNumber (-p.offset).text = .ok (-y)) :
    Leads d (rhsPart p) { d with
      offset := if p.offset == .zero then d.offset else y
      rows := d.rows.map (·.enter setRhs (entriesOf rhsGiven p.rows)) } := by
  rw [rhsPart_eq]
  apply (leads_offset hpart hobjective hoffset).append
  refine leads_entries (d := { d with offset := if p.offset == .zero then d.offset else y })
    (fun _ _ => rfl) (by simp [hpart]) ?_ ?_
  · intro e he d' hpart' hobjective'
    obtain ⟨r, hr, hname, hx⟩ := mem_entriesOf.mp he
    refine ⟨_, reads_record isWord_rhs (hname ▸ hword r hr) e.2.isWord_text, ?_⟩
    have hno : d'.isObjective e.1 = false := by
      rw [isObjective_eq (hobjective'.trans hobjective), hname]
      exact beq_eq_false_iff_ne.mpr fun h => hobj (h ▸ List.mem_map_of_mem hr)
    rw [line_rhs (hpart'.trans hpart) (toNumber_text (isNaN_of_mem_rhsGiven e.2 hx)), hno]
    rfl
  · intro e he
    obtain ⟨r, hr, hname, -⟩ := mem_entriesOf.mp he
    rw [hnames, hname]
    exact List.mem_map_of_mem hr

end Reading

theorem rangesPart_eq (p : Program) :
    rangesPart p = if (entriesOf rangeGiven p.rows).isEmpty then []
      else "RANGES" :: (entriesOf rangeGiven p.rows).map fun e => record "RNG" e.1 e.2.text := by
  have hentries : (p.rows.filterMap fun r => (rowRange r).map (r.name, ·)) =
      entriesOf rangeGiven p.rows := by
    rw [entriesOf, List.filterMap_eq_flatMap_toList]
    congr 1
    funext r
    rw [rangeGiven]
    cases rowRange r <;> rfl
  rw [rangesPart, hentries]
  cases entriesOf rangeGiven p.rows with
  | nil => rfl
  | cons e es => rfl

namespace Reading

variable {d : Reading}

theorem leads_rangesPart {p : Program}
    (hnames : d.rows.map (·.name) = p.rows.map (·.name))
    (hword : ∀ r ∈ p.rows, Text.isWord r.name = true) :
    ∃ part, Leads d (rangesPart p) { d with
      part := part
      rows := d.rows.map (·.enter setRange (entriesOf rangeGiven p.rows)) } := by
  rw [rangesPart_eq]
  cases hentries : entriesOf rangeGiven p.rows with
  | nil =>
      have hrows : d.rows.map (·.enter setRange []) = d.rows := List.map_id _
      rw [hrows]
      exact ⟨d.part, .nil d⟩
  | cons e es =>
      rw [← hentries, if_neg (by simp [hentries])]
      refine ⟨.ranges, (leads_header d .ranges (by decide)).append ?_⟩
      refine leads_entries (d := d.inPart .ranges) (fun _ _ => rfl) (by simp [inPart]) ?_ ?_
      · intro e he d' hpart' _
        obtain ⟨r, hr, hname, hx⟩ := mem_entriesOf.mp he
        exact ⟨_, reads_record isWord_rng (hname ▸ hword r hr) e.2.isWord_text,
          line_range hpart' (isNaN_of_mem_rangeGiven e.2 hx)⟩
      · intro e he
        obtain ⟨r, hr, hname, -⟩ := mem_entriesOf.mp he
        rw [show (d.inPart .ranges).rows = d.rows from rfl, hnames, hname]
        exact List.mem_map_of_mem hr

end Reading

section

variable {r : Row} {o : OpenRow} {v x y : Double}

/-- A number, or a zero in place of a zero. -/
def Stands (v x : Double) : Prop := v = x ∨ v = .zero ∧ (x == .zero) = true

theorem Stands.numEq (h : Stands v x) (hx : x.isNaN = false) : (v == x) = true := by
  rcases h with rfl | ⟨rfl, hzero⟩
  · exact Double.numEq_refl hx
  · exact Double.numEq_symm hzero

theorem Stands.add_numEq (h : Stands v x) (hx : x.isFinite = true) (hy : y.isNaN = false) :
    (v + y == x + y) = true := by
  rcases h with rfl | ⟨rfl, hzero⟩
  · exact Double.numEq_refl (Double.isNaN_add hx hy)
  · exact Double.zero_add_numEq hzero hy

theorem exists_rhs (hx : rowRhs r = some x) (ho : o.rhs = .zero) :
    ∃ v, Stands v x ∧ (rhsGiven r).foldl (fun o x => setRhs x o) o = { o with rhs := v } := by
  rw [rhsGiven, hx, Option.toList_some]
  by_cases h : x == .zero
  · have hgiven : [x].filter (fun x => !(x == .zero)) = [] := by simp [h]
    refine ⟨.zero, .inr ⟨rfl, h⟩, ?_⟩
    rw [hgiven, List.foldl_nil, ← ho]
  · have hgiven : [x].filter (fun x => !(x == .zero)) = [x] := by simp [h]
    refine ⟨x, .inl rfl, ?_⟩
    rw [hgiven]
    rfl

def filled (r : Row) (o : OpenRow) : OpenRow :=
  (rangeGiven r).foldl (fun o x => setRange x o) ((rhsGiven r).foldl (fun o x => setRhs x o) o)

def BoundsBack (r : Row) (bounds : Double × Double) : Prop :=
  (bounds.1 == r.lower) = true ∧ (bounds.2 == upperBack r) = true

theorem bounds_of_equal (hlower : r.lower.isNaN = false) (heq : (r.lower == r.upper) = true)
    (hkind : o.kind = rowKind r) (hrhs : o.rhs = .zero) (hrange : o.range = none) :
    BoundsBack r (filled r o).bounds := by
  obtain ⟨v, hv, hfold⟩ := exists_rhs (r := r) (x := r.lower) (by simp [rowRhs, heq]) hrhs
  have hnone : rangeGiven r = [] := by simp [rangeGiven, rowRange, heq]
  have hequal : o.kind = .equal := by rw [hkind, rowKind, if_pos heq]
  have hback : upperBack r = r.upper := by simp [upperBack, heq]
  have hleft := hv.numEq hlower
  simp only [BoundsBack, filled, hfold, hnone, List.foldl_nil, OpenRow.bounds, hequal, hrange, hback]
  exact ⟨hleft, Double.numEq_trans hleft heq⟩

theorem bounds_of_lower (hlt : r.lower.numLt r.upper = true) (heq : ¬ (r.lower == r.upper) = true)
    (hl : r.lower.isFinite = true) (hkind : o.kind = rowKind r) (hrhs : o.rhs = .zero)
    (hrange : o.range = none) : BoundsBack r (filled r o).bounds := by
  obtain ⟨v, hv, hfold⟩ := exists_rhs (r := r) (x := r.lower) (by simp [rowRhs, heq, hl]) hrhs
  have hleft := hv.numEq (Double.isNaN_of_isFinite hl)
  have hgreater : o.kind = .greater := by rw [hkind, rowKind, if_neg heq, if_pos hl]
  by_cases hu : r.upper.isFinite
  · obtain ⟨m, hm, hwidth⟩ := Double.exists_sub_eq hl hu hlt
    have hsome : rangeGiven r = [r.upper - r.lower] := by simp [rangeGiven, rowRange, heq, hl, hu]
    have hback : upperBack r = r.lower + (r.upper - r.lower) := by simp [upperBack, heq, hl, hu]
    simp only [BoundsBack, filled, hfold, hsome, List.foldl_cons, List.foldl_nil, setRange,
      OpenRow.bounds, hgreater, hback, hwidth, Double.abs_ofParts hm]
    exact ⟨hleft, hv.add_numEq hl (Double.isNaN_ofParts hm _)⟩
  · have hinf := Double.eq_infinity_of_numLt hlt (Bool.eq_false_iff.mpr hu)
    have hnone : rangeGiven r = [] := by simp [rangeGiven, rowRange, hu]
    have hback : upperBack r = r.upper := by simp [upperBack, hu]
    simp only [BoundsBack, filled, hfold, hnone, List.foldl_nil, OpenRow.bounds, hgreater, hrange,
      hback, hinf]
    exact ⟨hleft, Double.numEq_refl Double.isNaN_infinity⟩

theorem bounds_of_no_lower (hlt : r.lower.numLt r.upper = true)
    (heq : ¬ (r.lower == r.upper) = true) (hl : ¬ r.lower.isFinite = true)
    (hkind : o.kind = rowKind r) (hrhs : o.rhs = .zero) (hrange : o.range = none) :
    BoundsBack r (filled r o).bounds := by
  have hneg := Double.eq_negInfinity_of_numLt hlt (Bool.eq_false_iff.mpr hl)
  have hleft := Double.numEq_refl Double.isNaN_negInfinity
  have hnone : rangeGiven r = [] := by simp [rangeGiven, rowRange, hl]
  have hback : upperBack r = r.upper := by simp [upperBack, hl]
  by_cases hu : r.upper.isFinite
  · obtain ⟨v, hv, hfold⟩ :=
      exists_rhs (r := r) (x := r.upper) (by simp [rowRhs, heq, hl, hu]) hrhs
    have hless : o.kind = .less := by rw [hkind, rowKind, if_neg heq, if_neg hl, if_pos hu]
    simp only [BoundsBack, filled, hfold, hnone, List.foldl_nil, OpenRow.bounds, hless, hrange,
      hback, hneg]
    exact ⟨hleft, hv.numEq (Double.isNaN_of_isFinite hu)⟩
  · have hinf := Double.eq_infinity_of_numLt hlt (Bool.eq_false_iff.mpr hu)
    have hgiven : rhsGiven r = [] := by simp [rhsGiven, rowRhs, heq, hl, hu]
    have hfree : o.kind = .free := by rw [hkind, rowKind, if_neg heq, if_neg hl, if_neg hu]
    simp only [BoundsBack, filled, hgiven, hnone, List.foldl_nil, OpenRow.bounds, hfree, hback, hneg,
      hinf]
    exact ⟨hleft, Double.numEq_refl Double.isNaN_infinity⟩

theorem bounds_filled (h : r.lower.numLe r.upper = true) (hkind : o.kind = rowKind r)
    (hrhs : o.rhs = .zero) (hrange : o.range = none) : BoundsBack r (filled r o).bounds := by
  by_cases heq : r.lower == r.upper
  · exact bounds_of_equal (Double.numLe_iff.mp h).1 heq hkind hrhs hrange
  · have hlt := Double.numLt_of_numLe h (Bool.eq_false_iff.mpr heq)
    by_cases hl : r.lower.isFinite
    · exact bounds_of_lower hlt heq hl hkind hrhs hrange
    · exact bounds_of_no_lower hlt heq hl hkind hrhs hrange

end

end LinOpt.Mps
