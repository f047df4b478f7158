import LinOpt.Proofs.Mps.Columns
import LinOpt.Proofs.Mps.ReadsBack

namespace LinOpt.Mps

/-- What the bounds written for a column do to the column that they name. -/
def bounded (c o : Column) : Column :=
  if c.kind = .binary && c.lower == .zero && c.upper == .one then
    { o with lower := .zero, upper := .one, kind := .binary }
  else { o with lower := c.lower, upper := if c.lower == c.upper then c.lower else c.upper }

def lowered (c o : Column) : Column :=
  { o with lower := if c.lower.isFinite then c.lower else .negInfinity }

def raised (c o : Column) : Column :=
  if c.upper.isFinite then Reading.setUpper o c.upper else { o with upper := .infinity }

def rebound (c o : Column) : Column :=
  if c.kind = .binary && c.lower == .zero && c.upper == .one then
    { o with lower := .zero, upper := .one, kind := .binary }
  else if c.lower == c.upper then { o with lower := c.lower, upper := c.lower }
  else if !c.lower.isFinite && !c.upper.isFinite then
    { o with lower := .negInfinity, upper := .infinity }
  else raised c (lowered c o)

theorem name_raised (c o : Column) : (raised c o).name = o.name := by
  rw [raised]
  split <;> rfl

theorem name_rebound (c o : Column) : (rebound c o).name = o.name := by
  rw [rebound]
  split
  · rfl
  · split
    · rfl
    · split
      · rfl
      · exact name_raised c (lowered c o)

theorem setUpper_of_numLt {c : Column} {x : Double} (h : c.lower.numLt x = true) :
    Reading.setUpper c x = { c with upper := x } := by
  have hkeep : (x.numLt .zero && c.lower == .zero) = false := by
    apply Bool.eq_false_iff.mpr
    intro hboth
    obtain ⟨hneg, hzero⟩ := (Bool.and_eq_true _ _).mp hboth
    obtain ⟨-, -, hx⟩ := Double.numLt_iff.mp hneg
    obtain ⟨-, -, hl⟩ := Double.numEq_iff.mp hzero
    obtain ⟨-, -, hlt⟩ := Double.numLt_iff.mp h
    omega
  rw [Reading.setUpper, hkeep]
  rfl

theorem lowered_of_numLt {c : Column} (h : c.lower.numLt c.upper = true) (o : Column) :
    lowered c o = { o with lower := c.lower } := by
  rw [lowered]
  split
  case isTrue => rfl
  case isFalse hl => rw [Double.eq_negInfinity_of_numLt h (Bool.eq_false_iff.mpr hl)]

theorem raised_of_numLt {c : Column} (h : c.lower.numLt c.upper = true) (o : Column) :
    raised c (lowered c o) = { o with lower := c.lower, upper := c.upper } := by
  rw [lowered_of_numLt h, raised]
  split
  case isTrue => exact setUpper_of_numLt h
  case isFalse hu => rw [Double.eq_infinity_of_numLt h (Bool.eq_false_iff.mpr hu)]

theorem rebound_eq_bounded {c : Column} (h : c.lower.numLe c.upper = true) :
    rebound c = bounded c := by
  funext o
  rw [rebound, bounded]
  by_cases hbinary : c.kind = .binary && c.lower == .zero && c.upper == .one
  · rw [if_pos hbinary, if_pos hbinary]
  · rw [if_neg hbinary, if_neg hbinary]
    by_cases heq : c.lower == c.upper
    · rw [if_pos heq, if_pos heq]
    · have hlt := Double.numLt_of_numLe h (Bool.eq_false_iff.mpr heq)
      rw [if_neg heq, if_neg heq, raised_of_numLt hlt]
      split
      case isTrue hfree =>
        rw [Bool.and_eq_true, Bool.not_eq_true', Bool.not_eq_true'] at hfree
        rw [Double.eq_negInfinity_of_numLt hlt hfree.1, Double.eq_infinity_of_numLt hlt hfree.2]
      case isFalse => rfl

def IsKind (kind : String) (valued : Bool) : Prop :=
  Text.upper kind = kind ∧ Reading.hasValue kind = valued ∧ Text.isWord kind = true

instance (kind : String) (valued : Bool) : Decidable (IsKind kind valued) :=
  inferInstanceAs (Decidable (_ ∧ _ ∧ _))

namespace Reading

variable {d : Reading} {name : String}

def withColumn (d : Reading) (name : String) (g : Column → Column) : Reading :=
  { d with columns := d.columns.map fun c => if c.name == name then g c else c }

theorem withColumn_withColumn {f g : Column → Column} (hf : ∀ c, (f c).name = c.name) :
    (d.withColumn name f).withColumn name g = d.withColumn name (g ∘ f) := by
  simp only [withColumn, List.map_map]
  congr 1
  apply List.map_congr_left
  intro c _
  by_cases h : c.name = name
  · simp [h, hf]
  · simp [h]

theorem names_withColumn {g : Column → Column} (hg : ∀ c, (g c).name = c.name) :
    (d.withColumn name g).columns.map (·.name) = d.columns.map (·.name) := by
  rw [withColumn, List.map_map]
  apply List.map_congr_left
  intro c _
  rw [Function.comp_apply]
  split
  · exact hg c
  · rfl

theorem changeColumn_eq {f : Column → Except Fault Column} {g : Column → Column}
    (h : name ∈ d.columns.map (·.name)) (hf : ∀ c, f c = .ok (g c)) :
    d.changeColumn name f = .ok (d.withColumn name g) := by
  have hany : d.columns.any (·.name == name) = true := by
    obtain ⟨c, hc, heq⟩ := List.mem_map.mp h
    exact List.any_eq_true.mpr ⟨c, hc, beq_iff_eq.mpr heq⟩
  have hpure : (fun c : Column => if c.name == name then f c else .ok c) =
      fun c => pure (if c.name == name then g c else c) := by
    funext c
    rw [hf]
    split <;> rfl
  rw [changeColumn, if_pos hany, hpure, List.mapM_pure]
  rfl

theorem leads_boundLine (kind : String) {g : Column → Column} (hpart : d.part = .bounds)
    (hkind : IsKind kind false) (hname : Text.isWord name = true)
    (h : name ∈ d.columns.map (·.name)) (hg : ∀ c, setBound kind .zero c = .ok (g c)) :
    Leads d [boundLine kind name] (d.withColumn name g) := by
  obtain ⟨hupper, hvalue, hword⟩ := hkind
  have hcolumn : (d.column? name).isSome = true := isSome_column?.mpr h
  have hline : d.line ⟨true, [kind, "BND", name]⟩ = d.changeColumn name (setBound kind .zero) := by
    simp only [line, Reading.record, hpart, if_true, boundRecord, boundTarget, hupper, hvalue,
      Bool.false_eq_true, if_false, hcolumn]
    rfl
  rw [changeColumn_eq h hg] at hline
  apply Leads.single (reads_boundLine hword hname) hline
  simp [withColumn, hpart]

theorem leads_valueLine (kind : String) {x : Double} {g : Column → Column} (hpart : d.part = .bounds)
    (hkind : IsKind kind true) (hname : Text.isWord name = true) (hx : x.isNaN = false)
    (h : name ∈ d.columns.map (·.name)) (hg : ∀ c, setBound kind x c = .ok (g c)) :
    Leads d [valueLine kind name x] (d.withColumn name g) := by
  obtain ⟨hupper, hvalue, hword⟩ := hkind
  have hline : d.line ⟨true, [kind, "BND", name, x.text]⟩ =
      d.changeColumn name (setBound kind x) := by
    have hreverse : ["BND", name, x.text].reverse = [x.text, name, "BND"] := rfl
    simp only [line, Reading.record, hpart, if_true, boundRecord, boundTarget, hupper, hvalue,
      hreverse, toNumber_text hx]
    rfl
  rw [changeColumn_eq h hg] at hline
  apply Leads.single (reads_valueLine hword hname x) hline
  simp [withColumn, hpart]

section

variable {c : Column}

theorem leads_lowerLine (hpart : d.part = .bounds) (hname : Text.isWord c.name = true)
    (h : c.name ∈ d.columns.map (·.name)) :
    Leads d [if c.lower.isFinite then valueLine "LO" c.name c.lower else boundLine "MI" c.name]
      (d.withColumn c.name (lowered c)) := by
  by_cases hl : c.lower.isFinite
  · rw [if_pos hl]
    refine leads_valueLine "LO" hpart (by decide) hname (Double.isNaN_of_isFinite hl) h fun o => ?_
    rw [lowered, if_pos hl]
    rfl
  · rw [if_neg hl]
    refine leads_boundLine "MI" hpart (by decide) hname h fun o => ?_
    rw [lowered, if_neg hl]
    rfl

theorem leads_upperLine (hpart : d.part = .bounds) (hname : Text.isWord c.name = true)
    (h : c.name ∈ d.columns.map (·.name)) :
    Leads d [if c.upper.isFinite then valueLine "UP" c.name c.upper else boundLine "PL" c.name]
      (d.withColumn c.name (raised c)) := by
  by_cases hu : c.upper.isFinite
  · rw [if_pos hu]
    refine leads_valueLine "UP" hpart (by decide) hname (Double.isNaN_of_isFinite hu) h fun o => ?_
    rw [raised, if_pos hu]
    rfl
  · rw [if_neg hu]
    refine leads_boundLine "PL" hpart (by decide) hname h fun o => ?_
    rw [raised, if_neg hu]
    rfl

theorem leads_boundLines (hpart : d.part = .bounds) (hname : Text.isWord c.name = true)
    (h : c.name ∈ d.columns.map (·.name)) :
    Leads d (boundLines c) (d.withColumn c.name (rebound c)) := by
  rw [boundLines]
  split
  case isTrue hbinary =>
    refine leads_boundLine "BV" hpart (by decide) hname h fun o => ?_
    rw [rebound, if_pos hbinary]
    rfl
  case isFalse hbinary =>
    split
    case isTrue heq =>
      have hlower := (Double.numEq_iff.mp heq).1
      refine leads_valueLine "FX" hpart (by decide) hname hlower h fun o => ?_
      rw [rebound, if_neg hbinary, if_pos heq]
      rfl
    case isFalse heq =>
      split
      case isTrue hfree =>
        refine leads_boundLine "FR" hpart (by decide) hname h fun o => ?_
        rw [rebound, if_neg hbinary, if_neg heq, if_pos hfree]
        rfl
      case isFalse hfree =>
        have hsame (o : Column) : (lowered c o).name = o.name := rfl
        have hboth : rebound c = raised c ∘ lowered c := by
          funext o
          rw [rebound, if_neg hbinary, if_neg heq, if_neg hfree]
          rfl
        have hupper := leads_upperLine (d := d.withColumn c.name (lowered c)) (c := c) hpart hname
          (by rwa [names_withColumn hsame])
        rw [withColumn_withColumn hsame, ← hboth] at hupper
        exact (leads_lowerLine hpart hname h).append hupper

end

theorem leads_boundsPart (before : List Column) {cs : List Column} (hpart : d.part = .bounds)
    (hcolumns : d.columns = before ++ cs.map opened)
    (hword : ∀ c ∈ cs, Text.isWord c.name = true)
    (hnodup : (before.map (·.name) ++ cs.map (·.name)).Nodup) :
    Leads d (cs.flatMap boundLines)
      { d with columns := before ++ cs.map fun c => rebound c (opened c) } := by
  induction cs generalizing d before with
  | nil =>
      have hd : ({ d with columns := before ++ [] } : Reading) = d := by
        rw [← show d.columns = before ++ [] from hcolumns]
      rw [List.flatMap_nil, List.map_nil, hd]
      exact .nil d
  | cons c cs ih =>
      obtain ⟨-, hcs, hapart⟩ := List.nodup_append.mp hnodup
      have hbefore : ∀ o ∈ before, o.name ≠ c.name := fun o ho =>
        hapart o.name (List.mem_map_of_mem ho) c.name List.mem_cons_self
      have hafter : ∀ o ∈ cs, o.name ≠ c.name := by
        intro o ho heq
        rw [List.map_cons, List.nodup_cons] at hcs
        exact hcs.1 (heq ▸ List.mem_map_of_mem ho)
      have hmem : c.name ∈ d.columns.map (·.name) := by
        rw [hcolumns]
        simp [opened]
      have hfirst := leads_boundLines hpart (hword c List.mem_cons_self) hmem
      have hnext : d.withColumn c.name (rebound c) =
          { d with columns := (before ++ [rebound c (opened c)]) ++ cs.map opened } := by
        have hleft : (before.map fun o => if o.name == c.name then rebound c o else o) = before :=
          (List.map_congr_left fun o ho => if_neg (by simp [hbefore o ho])).trans (List.map_id _)
        have hright : ((cs.map opened).map fun o => if o.name == c.name then rebound c o else o) =
            cs.map opened := by
          rw [List.map_map]
          exact List.map_congr_left fun o ho => if_neg (by simp [opened, hafter o ho])
        rw [withColumn, hcolumns, List.map_append, hleft, List.map_cons, List.map_cons, hright,
          if_pos (show ((opened c).name == c.name) = true from beq_self_eq_true c.name),
          List.append_assoc]
        rfl
      rw [hnext] at hfirst
      have hrest := ih (d := { d with columns := (before ++ [rebound c (opened c)]) ++ cs.map opened })
        (before ++ [rebound c (opened c)]) hpart rfl
        (fun c' h => hword c' (List.mem_cons_of_mem c h))
        (by simpa [name_rebound, opened] using hnodup)
      have hdone : (before ++ [rebound c (opened c)]) ++ cs.map (fun c => rebound c (opened c)) =
          before ++ (c :: cs).map fun c => rebound c (opened c) := by
        rw [List.append_assoc]
        rfl
      rw [hdone] at hrest
      exact hfirst.append hrest

end Reading

end LinOpt.Mps
