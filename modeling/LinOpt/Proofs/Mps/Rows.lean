import LinOpt.Proofs.Double.Arithmetic
import LinOpt.Proofs.Mps.Leads

namespace LinOpt.Mps

def rowKind (r : Row) : RowKind :=
  if r.lower == r.upper then .equal
  else if r.lower.isFinite then .greater
  else if r.upper.isFinite then .less
  else .free

def declared (r : Row) : OpenRow := { name := r.name, kind := rowKind r }

theorem names_declared (rs : List Row) :
    (rs.map declared).map (·.name) = rs.map (·.name) := by
  rw [List.map_map]
  rfl

abbrev Entries := List (String × Double)

def OpenRow.enter (f : Double → OpenRow → OpenRow) (es : Entries) (r : OpenRow) : OpenRow :=
  (es.filter (·.1 == r.name)).foldl (fun r e => f e.2 r) r

theorem OpenRow.enter_cons {f : Double → OpenRow → OpenRow} (hf : ∀ x r, (f x r).name = r.name)
    (e : String × Double) (es : Entries) (r : OpenRow) :
    r.enter f (e :: es) = (if r.name == e.1 then f e.2 r else r).enter f es := by
  by_cases h : r.name = e.1
  · simp [enter, h, hf]
  · have hne : (e.1 == r.name) = false := beq_eq_false_iff_ne.mpr fun h' => h h'.symm
    simp [enter, h, hne]

theorem OpenRow.enter_preserves {α : Type} {g : OpenRow → α} {f : Double → OpenRow → OpenRow}
    (hg : ∀ x r, g (f x r) = g r) (es : Entries) (r : OpenRow) : g (r.enter f es) = g r := by
  rw [enter]
  induction es.filter (·.1 == r.name) generalizing r with
  | nil => rfl
  | cons e es ih =>
      rw [List.foldl_cons, ih]
      exact hg e.2 r

theorem names_map {g : OpenRow → OpenRow} (hg : ∀ r, (g r).name = r.name) (rs : List OpenRow) :
    (rs.map g).map (·.name) = rs.map (·.name) := by
  rw [List.map_map]
  exact List.map_congr_left fun r _ => hg r

namespace Reading

variable {d e : Reading}

theorem leads_header (d : Reading) (part : Section) (hpart : part ∉ [.start, .sense, .ended]) :
    Leads d [part.header] (d.inPart part) := by
  have hline : d.line ⟨false, [part.header]⟩ = .ok (d.inPart part) := by
    cases part <;> rfl
  apply Leads.single (reads_header part) hline
  rintro rfl
  exact hpart (by decide)

theorem hasRow_iff {name : String} : d.hasRow name = true ↔ name ∈ d.rows.map (·.name) := by
  simp [hasRow]

theorem isObjective_eq (hobjective : d.objectiveRow = some objectiveName) (name : String) :
    d.isObjective name = (objectiveName == name) := by
  rw [isObjective, hobjective]
  rfl

theorem rowRecord_rowLetter {r : Row} (hobjective : d.objectiveRow = some objectiveName)
    (hne : r.name ≠ objectiveName) (hfresh : r.name ∉ d.rows.map (·.name)) :
    d.rowRecord [rowLetter r, r.name] = .ok { d with rows := d.rows ++ [declared r] } := by
  have hobj : d.isObjective r.name = false :=
    (isObjective_eq hobjective r.name).trans (beq_eq_false_iff_ne.mpr hne.symm)
  have hrow : d.hasRow r.name = false := Bool.eq_false_iff.mpr fun h => hfresh (hasRow_iff.mp h)
  rw [rowRecord, hobj, hrow, declared, rowKind, rowLetter]
  by_cases heq : r.lower == r.upper
  · simp [heq, Text.upper, addRow]
  · by_cases hlower : r.lower.isFinite
    · simp [heq, hlower, Text.upper, addRow]
    · by_cases hupper : r.upper.isFinite
      · simp [heq, hlower, hupper, Text.upper, addRow]
      · simp [heq, hlower, hupper, Text.upper, addRow, hobjective]

theorem leads_rowLines {rs : List Row} (hpart : d.part = .rows)
    (hobjective : d.objectiveRow = some objectiveName)
    (hword : ∀ r ∈ rs, Text.isWord r.name = true) (hne : ∀ r ∈ rs, r.name ≠ objectiveName)
    (hnodup : (d.rows.map (·.name) ++ rs.map (·.name)).Nodup) :
    Leads d (rs.map rowLine) { d with rows := d.rows ++ rs.map declared } := by
  induction rs generalizing d with
  | nil =>
      rw [List.map_nil, List.map_nil, List.append_nil]
      exact .nil d
  | cons r rs ih =>
      have hfresh : r.name ∉ d.rows.map (·.name) := by
        intro h
        exact (List.nodup_append.mp hnodup).2.2 r.name h r.name List.mem_cons_self rfl
      have hline : d.line ⟨true, [rowLetter r, r.name]⟩ =
          .ok { d with rows := d.rows ++ [declared r] } := by
        rw [← rowRecord_rowLetter hobjective (hne r List.mem_cons_self) hfresh]
        simp [line, Reading.record, hpart]
      have hrest := ih (d := { d with rows := d.rows ++ [declared r] }) hpart hobjective
        (fun t ht => hword t (List.mem_cons_of_mem r ht))
        (fun t ht => hne t (List.mem_cons_of_mem r ht))
        (by simpa [declared] using hnodup)
      rw [List.append_assoc] at hrest
      refine .cons (reads_rowLine (hword r List.mem_cons_self)) hline ?_ hrest
      simp [hpart]

theorem changeRow_eq {name : String} {f : OpenRow → OpenRow} (h : name ∈ d.rows.map (·.name)) :
    d.changeRow name f = .ok { d with
      rows := d.rows.map fun r => if r.name == name then f r else r } := by
  rw [changeRow, if_pos (hasRow_iff.mpr h)]

theorem leads_entries {f : Double → OpenRow → OpenRow} {g : String × Double → String} {es : Entries}
    (hf : ∀ x r, (f x r).name = r.name) (hpart : d.part ≠ .ended)
    (hline : ∀ e ∈ es, ∀ d' : Reading, d'.part = d.part → d'.objectiveRow = d.objectiveRow →
      ∃ l, Reads (g e) l ∧ d'.line l = d'.changeRow e.1 (f e.2))
    (hknown : ∀ e ∈ es, e.1 ∈ d.rows.map (·.name)) :
    Leads d (es.map g) { d with rows := d.rows.map (·.enter f es) } := by
  induction es generalizing d with
  | nil =>
      simp only [OpenRow.enter, List.filter_nil, List.foldl_nil, List.map_id']
      exact .nil d
  | cons e es ih =>
      obtain ⟨l, hreads, hl⟩ := hline e List.mem_cons_self d rfl rfl
      rw [changeRow_eq (hknown e List.mem_cons_self)] at hl
      have hnames : (d.rows.map fun r => if r.name == e.1 then f e.2 r else r).map (·.name) =
          d.rows.map (·.name) := by
        refine names_map (fun r => ?_) d.rows
        split
        · exact hf e.2 r
        · rfl
      have hrows : (d.rows.map fun r => if r.name == e.1 then f e.2 r else r).map (·.enter f es) =
          d.rows.map (·.enter f (e :: es)) := by
        rw [List.map_map]
        exact List.map_congr_left fun r _ => (OpenRow.enter_cons hf e es r).symm
      have hrest := ih (d := { d with
        rows := d.rows.map fun r => if r.name == e.1 then f e.2 r else r }) hpart
        (fun e' he' => hline e' (List.mem_cons_of_mem e he'))
        fun e' he' => hnames.symm ▸ hknown e' (List.mem_cons_of_mem e he')
      rw [hrows] at hrest
      exact .cons hreads hl hpart hrest

end Reading

def entriesOf (f : Row → List Double) (rs : List Row) : Entries :=
  rs.flatMap fun r => (f r).map (r.name, ·)

variable {f : Row → List Double} {rs : List Row} {r : Row}

theorem mem_entriesOf {e : String × Double} :
    e ∈ entriesOf f rs ↔ ∃ r ∈ rs, e.1 = r.name ∧ e.2 ∈ f r := by
  rw [entriesOf, List.mem_flatMap]
  constructor
  · rintro ⟨r, hr, he⟩
    obtain ⟨x, hx, rfl⟩ := List.mem_map.mp he
    exact ⟨r, hr, rfl, hx⟩
  · rintro ⟨r, hr, hname, hx⟩
    exact ⟨r, hr, List.mem_map.mpr ⟨e.2, hx, Prod.ext hname.symm rfl⟩⟩

theorem filter_entriesOf_of_not_mem {name : String} (h : name ∉ rs.map (·.name)) :
    (entriesOf f rs).filter (·.1 == name) = [] := by
  rw [List.filter_eq_nil_iff]
  intro e he heq
  obtain ⟨r, hr, hname, -⟩ := mem_entriesOf.mp he
  rw [eq_of_beq heq] at hname
  exact h (List.mem_map.mpr ⟨r, hr, hname.symm⟩)

theorem entriesOf_cons (f : Row → List Double) (r : Row) (rs : List Row) :
    entriesOf f (r :: rs) = (f r).map (r.name, ·) ++ entriesOf f rs := rfl

theorem filter_entriesOf (hnodup : (rs.map (·.name)).Nodup) (hr : r ∈ rs) :
    (entriesOf f rs).filter (·.1 == r.name) = (f r).map (r.name, ·) := by
  induction rs with
  | nil => cases hr
  | cons s rs ih =>
      rw [List.map_cons, List.nodup_cons] at hnodup
      rw [entriesOf_cons, List.filter_append, List.filter_map]
      rcases List.mem_cons.mp hr with rfl | hr
      · rw [filter_entriesOf_of_not_mem hnodup.1, List.append_nil, List.filter_eq_self.mpr]
        intro x _
        exact beq_self_eq_true r.name
      · rw [ih hnodup.2 hr, List.filter_eq_nil_iff.mpr, List.map_nil, List.nil_append]
        intro x _ heq
        exact hnodup.1 (List.mem_map.mpr ⟨r, hr, (eq_of_beq heq).symm⟩)

theorem OpenRow.enter_entriesOf {g : Double → OpenRow → OpenRow} {o : OpenRow}
    (hnodup : (rs.map (·.name)).Nodup) (hr : r ∈ rs) (ho : o.name = r.name) :
    o.enter g (entriesOf f rs) = (f r).foldl (fun o x => g x o) o := by
  rw [enter, ho, filter_entriesOf hnodup hr, List.foldl_map]

end LinOpt.Mps
