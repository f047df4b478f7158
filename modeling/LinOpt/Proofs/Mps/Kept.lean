import LinOpt.Proofs.Mps.RoundTrip
import LinOpt.Proofs.Program.InRange

namespace LinOpt.Mps

/-- What the text of a number is read as: the same number, or the one text for what is none. -/
def readBack (x : Double) : Double := if x.isNaN then .nan else x

theorem text_of_isNaN {x : Double} (hx : x.isNaN = true) : x.text = "NaN" := if_pos hx

theorem toNumber_readBack (x : Double) : toNumber x.text = .ok (readBack x) := by
  rw [readBack]
  split
  case isTrue hx =>
    rw [text_of_isNaN hx]
    rfl
  case isFalse hx => exact toNumber_text (Bool.eq_false_iff.mpr hx)

theorem text_readBack (x : Double) : (readBack x).text = x.text := by
  rw [readBack]
  split
  case isTrue hx =>
    rw [text_of_isNaN hx]
    rfl
  case isFalse => rfl

def entriesBack (es : Entries) : Entries := es.map fun e => (e.1, readBack e.2)

theorem listed_entriesBack (es : Entries) : listed (entriesBack es) = entriesBack (listed es) := by
  cases es with
  | nil => rfl
  | cons e es => rfl

theorem columnLines_entriesBack (name : String) (es : Entries) :
    columnLines name (entriesBack es) = columnLines name es := by
  rw [columnLines_eq, columnLines_eq, listed_entriesBack, entriesBack, List.map_map]
  exact List.map_congr_left fun e _ => congrArg (record name e.1) (text_readBack e.2)

theorem columnsPart_entriesBack (inBlock : Bool) (k : Nat) (cs : List (Column × Entries)) :
    columnsPart inBlock k (cs.map fun c => (c.1, entriesBack c.2)) = columnsPart inBlock k cs := by
  induction cs generalizing inBlock k with
  | nil => rfl
  | cons c cs ih =>
      obtain ⟨c, es⟩ := c
      rw [List.map_cons, Reading.columnsPart_cons, Reading.columnsPart_cons, columnLines_entriesBack,
        ih]

theorem termsFor_entriesBack (name : String) (j : Nat) (es : Entries) :
    termsFor name j (entriesBack es) = (termsFor name j es).map fun t => (t.1, readBack t.2) := by
  rw [termsFor, entriesBack, List.filter_map, List.map_map, termsFor, List.map_map]
  rfl

variable {p : Program}

def MarkerFree (p : Program) : Prop := ∀ r ∈ p.rows, r.name = "'MARKER'" → r.terms = []

theorem enterable_entriesBack (hnamed : Named p) (hmarker : MarkerFree p) (j : Nat) :
    ∀ e ∈ entriesBack (columnEntries p j), Enterable (p.rows.map (·.name)) e := by
  intro _ hmem
  obtain ⟨e, he, rfl⟩ := List.mem_map.mp hmem
  have hnumber : toNumber (readBack e.2).text = .ok (readBack e.2) := by
    rw [text_readBack]
    exact toNumber_readBack e.2
  rcases mem_columnEntries he with rfl | ⟨r, hr, hname, t, ht, -⟩
  · exact enterable_objective hnumber
  · refine ⟨.inr (hname ▸ List.mem_map_of_mem hr), hname ▸ hnamed.rows_word r hr, ?_, hnumber⟩
    intro hmark
    rw [hmarker r hr (hname.symm.trans hmark)] at ht
    cases ht

theorem termsBack (hnamed : Named p) (hp : p.InRange) {r : Row} (hr : r ∈ p.rows) :
    ((List.range' 0 p.columns.length).flatMap fun j =>
      termsFor r.name j (listed (entriesBack (columnEntries p j)))) =
      (r.terms.mergeSort fun t u => t.1 ≤ u.1).map fun t => (t.1, readBack t.2) := by
  rw [mergeSort_eq_flatMap _ (hp.terms r hr), List.range_eq_range', List.map_flatMap]
  refine List.flatMap_congr fun j _ => ?_
  rw [listed_entriesBack, termsFor_entriesBack, termsFor_row hnamed.rows_nodup hnamed.no_objective hr]

namespace Reading

def columnsKept (p : Program) : Reading :=
  entered (fun j => entriesBack (columnEntries p j)) p.columns ((rowsRead p).inPart .columns)

theorem leads_columnsKept (hnamed : Named p) (hmarker : MarkerFree p) :
    Leads (rowsRead p) ("COLUMNS" :: columnsPart false 0 (p.columns.zipIdx.map fun (c, j) =>
      (c, columnEntries p j))) (columnsKept p) := by
  have hnames : ((rowsRead p).inPart .columns).rows.map (·.name) = p.rows.map (·.name) :=
    names_declared p.rows
  have hcolumns := leads_columnsPart (d := (rowsRead p).inPart .columns) (k := 0)
    (fun j => entriesBack (columnEntries p j)) rfl rfl (hnames.symm ▸ hnamed.no_objective)
    hnamed.columns_word (hnames.symm ▸ enterable_entriesBack hnamed hmarker) hnamed.columns_nodup
  have hlines := columnsPart_entriesBack false 0 (p.columns.zipIdx.map fun (c, j) =>
    (c, columnEntries p j))
  rw [List.map_map] at hlines
  exact (leads_header _ .columns (by decide)).append (hlines ▸ hcolumns)

def outline (o : OpenRow) : String × List (Nat × Double) := (o.name, o.terms)

theorem outline_enter {f : Double → OpenRow → OpenRow} (hf : ∀ x o, outline (f x o) = outline o)
    (es : Entries) (rs : List OpenRow) : (rs.map (·.enter f es)).map outline = rs.map outline := by
  rw [List.map_map]
  exact List.map_congr_left fun o _ => OpenRow.enter_preserves (g := outline) hf es o

theorem names_of_outline {rs ss : List OpenRow} (h : rs.map outline = ss.map outline) :
    rs.map (·.name) = ss.map (·.name) := by
  have hfirst := congrArg (List.map Prod.fst) h
  rwa [List.map_map, List.map_map] at hfirst

theorem exists_leads_rest {d : Reading} (hnamed : Named p)
    (hobjective : d.objectiveRow = some objectiveName)
    (hrows : d.rows.map (·.name) = p.rows.map (·.name))
    (hcolumns : d.columns = p.columns.map opened) :
    ∃ e : Reading, Leads d ("RHS" :: rhsPart p ++ rangesPart p ++
        "BOUNDS" :: p.columns.flatMap boundLines) e ∧ e.objectiveRow = d.objectiveRow ∧
      e.columns.map (·.name) = p.columns.map (·.name) ∧ e.rows.map outline = d.rows.map outline := by
  have hoffset : toNumber (-p.offset).text = .ok (- -readBack (-p.offset)) := by
    rw [Double.neg_neg]
    exact toNumber_readBack _
  let rhs : Reading := { d with
    part := .rhs
    offset := if p.offset == .zero then d.offset else -readBack (-p.offset)
    rows := d.rows.map (·.enter setRhs (entriesOf rhsGiven p.rows)) }
  have hrhs : Leads d ("RHS" :: rhsPart p) rhs :=
    (leads_header d .rhs (by decide)).append (leads_rhsPart rfl hobjective hrows
      hnamed.no_objective hnamed.rows_word hoffset)
  have hrhsRows : rhs.rows.map outline = d.rows.map outline :=
    outline_enter (f := setRhs) (fun _ _ => rfl) (entriesOf rhsGiven p.rows) d.rows
  obtain ⟨part, hranges⟩ := leads_rangesPart (d := rhs) ((names_of_outline hrhsRows).trans hrows)
    hnamed.rows_word
  let ranges : Reading := { rhs with
    part := part
    rows := rhs.rows.map (·.enter setRange (entriesOf rangeGiven p.rows)) }
  have hrangesRows : ranges.rows.map outline = rhs.rows.map outline :=
    outline_enter (f := setRange) (fun _ _ => rfl) (entriesOf rangeGiven p.rows) rhs.rows
  have hbounds := (leads_header ranges .bounds (by decide)).append
    (leads_boundsPart [] rfl hcolumns hnamed.columns_word hnamed.columns_nodup)
  refine ⟨_, (hrhs.append hranges).append hbounds, rfl, ?_, hrangesRows.trans hrhsRows⟩
  rw [List.nil_append, List.map_map]
  exact List.map_congr_left fun c _ => name_rebound c (opened c)

theorem outline_columnsKept (hnamed : Named p) (hp : p.InRange) :
    (columnsKept p).rows.map outline = p.rows.map fun r =>
      (r.name, (r.terms.mergeSort fun t u => t.1 ≤ u.1).map fun t => (t.1, readBack t.2)) := by
  show ((p.rows.map declared).map _).map outline = _
  rw [List.map_map, List.map_map]
  refine List.map_congr_left fun r hr => Prod.ext rfl ?_
  exact termsBack hnamed hp hr

theorem exists_leads_text (hnamed : Named p) (hmarker : MarkerFree p) :
    ∃ ss d, textLines p = ss ++ ["ENDATA"] ∧ Leads {} ss d ∧
      d.objectiveRow = some objectiveName ∧
      d.columns.map (·.name) = p.columns.map (·.name) ∧
      d.rows.map outline = (columnsKept p).rows.map outline := by
  have hrows : (columnsKept p).rows.map (·.name) = p.rows.map (·.name) :=
    (names_entered _ p.columns _).trans (names_declared p.rows)
  obtain ⟨e, hrest, hobjective, hcolumns, he⟩ :=
    exists_leads_rest (d := columnsKept p) hnamed rfl hrows (List.nil_append _)
  have hleads := ((leads_head hnamed).append (leads_columnsKept hnamed hmarker)).append hrest
  refine ⟨_, e, ?_, hleads, hobjective, hcolumns, he⟩
  rw [textLines]
  simp only [List.append_assoc, List.cons_append, List.nil_append]

end Reading

/-- The same names in the same order, and in each row as many terms on each column. -/
structure Keeps (p q : Program) : Prop where
  columns : q.columns.map (·.name) = p.columns.map (·.name)
  rows : List.Forall₂
    (fun r s => s.name = r.name ∧ ∀ j, s.terms.countP (·.1 == j) = r.terms.countP (·.1 == j))
    p.rows q.rows

theorem countP_termsBack (ts : List (Nat × Double)) (j : Nat) :
    ((ts.mergeSort fun t u => t.1 ≤ u.1).map fun t => (t.1, readBack t.2)).countP (·.1 == j) =
      ts.countP (·.1 == j) := by
  rw [List.countP_map]
  exact (List.mergeSort_perm ts fun t u => decide (t.1 ≤ u.1)).countP_eq _

theorem exists_read_keeps (hnamed : Named p) (hp : p.InRange) (hmarker : MarkerFree p) :
    ∃ q, read (String.join ((textLines p).map (· ++ "\n"))) = .ok q ∧ Keeps p q := by
  obtain ⟨ss, d, htext, hleads, hobjective, hcolumns, hkept⟩ :=
    Reading.exists_leads_text hnamed hmarker
  have hrows := hkept.trans (Reading.outline_columnsKept hnamed hp)
  rw [htext]
  refine ⟨_, hleads.read (by rw [hobjective]; rfl), hcolumns, ?_⟩
  have hpairs : List.Forall₂ Eq (p.rows.map fun r => (r.name,
      (r.terms.mergeSort fun t u => t.1 ≤ u.1).map fun t => (t.1, readBack t.2)))
      (d.rows.map Reading.outline) := by
    rw [List.forall₂_eq_eq_eq, hrows]
  rw [List.forall₂_map_left_iff, List.forall₂_map_right_iff] at hpairs
  refine List.forall₂_map_right_iff.mpr (hpairs.imp fun r o h => ?_)
  obtain ⟨hname, hterms⟩ := Prod.mk.inj h
  refine ⟨hname.symm, fun j => ?_⟩
  rw [← countP_termsBack r.terms j, hterms]
  rfl

end LinOpt.Mps
