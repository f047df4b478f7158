import LinOpt.Proofs.Mps.ColumnBounds
import LinOpt.Proofs.Mps.RowBounds
import LinOpt.Proofs.Mps.Terms

namespace LinOpt.Mps

structure Named (p : Program) : Prop where
  columns_word : ∀ c ∈ p.columns, Text.isWord c.name = true
  columns_nodup : (p.columns.map (·.name)).Nodup
  rows_word : ∀ r ∈ p.rows, Text.isWord r.name = true
  rows_nodup : (p.rows.map (·.name)).Nodup
  no_objective : objectiveName ∉ p.rows.map (·.name)
  title_word : Text.isWord (title p) = true

theorem allowNames_eq_ok {taken names : List String} (h : allowNames taken names = .ok ()) :
    (∀ name ∈ names, Text.isWord name = true) ∧ names.Nodup ∧ ∀ name ∈ names, name ∉ taken := by
  induction names generalizing taken with
  | nil => exact ⟨List.forall_mem_nil _, List.nodup_nil, List.forall_mem_nil _⟩
  | cons name names ih =>
      rw [allowNames] at h
      by_cases hword : Text.isWord name = true
      · by_cases htaken : taken.contains name = true
        · rw [hword, htaken] at h
          cases h
        · rw [if_neg (by simp [hword]), if_neg htaken] at h
          obtain ⟨hwords, hnodup, hnew⟩ := ih h
          refine ⟨List.forall_mem_cons.mpr ⟨hword, hwords⟩, List.nodup_cons.mpr ⟨?_, hnodup⟩,
            List.forall_mem_cons.mpr ⟨by simpa using htaken, ?_⟩⟩
          · intro hmem
            exact hnew name hmem List.mem_cons_self
          · intro other hother hmem
            exact hnew other hother (List.mem_cons_of_mem name hmem)
      · rw [if_pos (by simp [hword])] at h
        cases h

variable {p : Program} {text : String}

theorem named_of_check (h : check p = .ok ()) : Named p := by
  rw [check] at h
  cases hcolumns : allowNames [] (p.columns.map (·.name)) with
  | error e =>
      rw [hcolumns] at h
      cases h
  | ok u =>
      cases hrows : allowNames [] (p.rows.map (·.name)) with
      | error e =>
          rw [hcolumns, hrows] at h
          cases h
      | ok v =>
          rw [hcolumns, hrows] at h
          obtain ⟨hcword, hcnodup, -⟩ := allowNames_eq_ok hcolumns
          obtain ⟨hrword, hrnodup, -⟩ := allowNames_eq_ok hrows
          by_cases hobj : p.rows.any (·.name == objectiveName) = true
          · rw [hobj] at h
            cases h
          · by_cases htitle : Text.isWord (title p) = true
            · exact ⟨by simpa using hcword, hcnodup, by simpa using hrword, hrnodup,
                by simpa using hobj, htitle⟩
            · rw [if_neg hobj, if_pos (by simp [htitle])] at h
              cases h

theorem write_of_check (h : check p = .ok ()) :
    write p = .ok (String.join ((textLines p).map (· ++ "\n"))) := by
  rw [write, h]
  rfl

theorem write_eq_ok (h : write p = .ok text) :
    Named p ∧ text = String.join ((textLines p).map (· ++ "\n")) := by
  rw [write] at h
  cases hcheck : check p with
  | error e =>
      rw [hcheck] at h
      cases h
  | ok u =>
      rw [hcheck] at h
      exact ⟨named_of_check hcheck, (Except.ok.inj h).symm⟩

namespace Reading

theorem leads_name (hp : Named p) : Leads {} ["NAME " ++ title p] { name := title p } :=
  .single (reads_name hp.title_word) rfl (show Section.start ≠ .ended by decide)

theorem leads_sense (d : Reading) (hsense : d.maximize = false) (maximize : Bool) :
    ∃ part, Leads d (if maximize then ["OBJSENSE", "    MAX"] else [])
      { d with part := part, maximize := maximize } := by
  cases maximize with
  | false =>
      refine ⟨d.part, ?_⟩
      have hd : ({ d with maximize := false } : Reading) = d := by rw [← hsense]
      rw [if_neg Bool.false_ne_true, hd]
      exact .nil d
  | true =>
      exact ⟨.sense, .cons (reads_header .sense) rfl (show Section.sense ≠ .ended by decide)
        (.single reads_max rfl (show Section.sense ≠ .ended by decide))⟩

def rowsRead (p : Program) : Reading where
  part := .rows
  name := title p
  maximize := p.maximize
  objectiveRow := some objectiveName
  rows := p.rows.map declared

def columnsRead (p : Program) : Reading :=
  entered (columnEntries p) p.columns ((rowsRead p).inPart .columns)

def rhsRead (p : Program) : Reading :=
  { columnsRead p with
    part := .rhs
    offset := if p.offset == .zero then .zero else p.offset
    rows := (columnsRead p).rows.map (·.enter setRhs (entriesOf rhsGiven p.rows)) }

def rangesRead (p : Program) (part : Section) : Reading :=
  { rhsRead p with
    part := part
    rows := (rhsRead p).rows.map (·.enter setRange (entriesOf rangeGiven p.rows)) }

def boundsRead (p : Program) : Reading :=
  { rangesRead p .bounds with columns := p.columns.map fun c => bounded c (opened c) }

theorem names_columnsRead (p : Program) :
    (columnsRead p).rows.map (·.name) = p.rows.map (·.name) :=
  (names_entered (columnEntries p) p.columns _).trans (names_declared p.rows)

theorem names_rhsRead (p : Program) : (rhsRead p).rows.map (·.name) = p.rows.map (·.name) :=
  (names_map (OpenRow.enter_preserves (g := (·.name)) (f := setRhs) (fun _ _ => rfl) _) _).trans
    (names_columnsRead p)

theorem leads_head (hnamed : Named p) :
    Leads {} (["NAME " ++ title p] ++ (if p.maximize then ["OBJSENSE", "    MAX"] else []) ++
      ["ROWS", " N  " ++ objectiveName] ++ p.rows.map rowLine) (rowsRead p) := by
  obtain ⟨part, hsense⟩ := leads_sense { name := title p } rfl p.maximize
  have hrows := leads_rowLines (d := { rowsRead p with rows := [] }) rfl rfl hnamed.rows_word
    (fun r hr h => hnamed.no_objective (h ▸ List.mem_map_of_mem hr)) hnamed.rows_nodup
  have hstart : Leads { name := title p, part := part, maximize := p.maximize }
      ["ROWS", " N  " ++ objectiveName] { rowsRead p with rows := [] } :=
    (leads_header _ .rows (by decide)).append
      (.single reads_objective rfl (show Section.rows ≠ .ended by decide))
  exact (((leads_name hnamed).append hsense).append hstart).append hrows

theorem leads_columns (hnamed : Named p) (hp : Writable p) :
    Leads (rowsRead p) ("COLUMNS" :: columnsPart false 0 (p.columns.zipIdx.map fun (c, j) =>
      (c, columnEntries p j))) (columnsRead p) := by
  have hnames : ((rowsRead p).inPart .columns).rows.map (·.name) = p.rows.map (·.name) :=
    names_declared p.rows
  exact (leads_header _ .columns (by decide)).append (leads_columnsPart (columnEntries p) rfl rfl
    (hnames.symm ▸ hnamed.no_objective) hnamed.columns_word
    (hnames.symm ▸ enterable_columnEntries hp hnamed.rows_word) hnamed.columns_nodup)

theorem leads_rhs (hnamed : Named p) (hp : Writable p) :
    Leads (columnsRead p) ("RHS" :: rhsPart p) (rhsRead p) :=
  (leads_header _ .rhs (by decide)).append (leads_rhsPart rfl rfl (names_columnsRead p)
    hnamed.no_objective hnamed.rows_word (toNumber_text ((Double.isNaN_neg _).trans hp.offset)))

theorem leads_ranges (hnamed : Named p) :
    ∃ part, Leads (rhsRead p) (rangesPart p) (rangesRead p part) :=
  leads_rangesPart (names_rhsRead p) hnamed.rows_word

theorem leads_bounds (hnamed : Named p) (hp : Writable p) (part : Section) :
    Leads (rangesRead p part) ("BOUNDS" :: p.columns.flatMap boundLines) (boundsRead p) := by
  have hbounded : (p.columns.map fun c => rebound c (opened c)) =
      p.columns.map fun c => bounded c (opened c) :=
    List.map_congr_left fun c hc => congrFun (rebound_eq_bounded (hp.column_bounds c hc)) (opened c)
  have hbounds := leads_boundsPart (d := (rangesRead p part).inPart .bounds) [] rfl rfl
    hnamed.columns_word hnamed.columns_nodup
  rw [hbounded] at hbounds
  exact (leads_header _ .bounds (by decide)).append hbounds

theorem leads_text (hnamed : Named p) (hp : Writable p) :
    ∃ ss, textLines p = ss ++ ["ENDATA"] ∧ Leads {} ss (boundsRead p) := by
  obtain ⟨part, hranges⟩ := leads_ranges hnamed
  refine ⟨_, rfl, ?_⟩
  exact ((((leads_head hnamed).append (leads_columns hnamed hp)).append (leads_rhs hnamed hp)).append
    hranges).append (leads_bounds hnamed hp part)

end Reading

def withTerms (p : Program) (r : Row) : OpenRow :=
  { declared r with
    terms := (List.range' 0 p.columns.length).flatMap fun j =>
      termsFor r.name j (listed (columnEntries p j)) }

def rowRead (p : Program) (r : Row) : OpenRow :=
  ((withTerms p r).enter setRhs (entriesOf rhsGiven p.rows)).enter setRange
    (entriesOf rangeGiven p.rows)

theorem terms_withTerms (hnamed : Named p) (hp : Writable p) {r : Row} (hr : r ∈ p.rows) :
    (withTerms p r).terms = r.terms.mergeSort fun t u => t.1 ≤ u.1 := by
  rw [mergeSort_eq_flatMap _ (hp.terms_lt r hr), List.range_eq_range']
  exact List.flatMap_congr fun j _ => termsFor_row hnamed.rows_nodup hnamed.no_objective hr j

theorem rowBack (hnamed : Named p) (hp : Writable p) {r : Row} (hr : r ∈ p.rows) :
    RowBack r (rowRead p r).close := by
  have hname (o : OpenRow) : (o.enter setRhs (entriesOf rhsGiven p.rows)).name = o.name :=
    OpenRow.enter_preserves (g := (·.name)) (f := setRhs) (fun _ _ => rfl) _ o
  have hread : rowRead p r = filled r (withTerms p r) := by
    rw [rowRead, filled, OpenRow.enter_entriesOf hnamed.rows_nodup hr ((hname _).trans rfl),
      OpenRow.enter_entriesOf hnamed.rows_nodup hr rfl]
  have hterms : (rowRead p r).terms = (withTerms p r).terms :=
    (OpenRow.enter_preserves (g := (·.terms)) (f := setRange) (fun _ _ => rfl) _ _).trans
      (OpenRow.enter_preserves (g := (·.terms)) (f := setRhs) (fun _ _ => rfl) _ _)
  obtain ⟨hlower, hupper⟩ :=
    bounds_filled (o := withTerms p r) (hp.row_bounds r hr) rfl rfl rfl
  rw [← hread] at hlower hupper
  refine ⟨?_, hterms.trans (terms_withTerms hnamed hp hr), hlower, hupper⟩
  exact (OpenRow.enter_preserves (g := (·.name)) (f := setRange) (fun _ _ => rfl) _ _).trans
    (hname (withTerms p r))

theorem columnBack {c : Column} (hbounds : c.lower.numLe c.upper = true) :
    ColumnBack c (bounded c (opened c)) := by
  obtain ⟨hlower, hupper, -⟩ := Double.numLe_iff.mp hbounds
  by_cases hbinary : c.kind = .binary && c.lower == .zero && c.upper == .one
  · have hread : bounded c (opened c) = ⟨c.name, .zero, .one, .binary⟩ := by
      rw [bounded, if_pos hbinary]
      rfl
    simp only [Bool.and_eq_true, decide_eq_true_eq] at hbinary
    obtain ⟨⟨hkind, hzero⟩, hone⟩ := hbinary
    rw [hread]
    exact ⟨rfl, Double.numEq_symm hzero, Double.numEq_symm hone, by simp [kindBack, hkind, hzero, hone]⟩
  · have hread : bounded c (opened c) =
        ⟨c.name, c.lower, if c.lower == c.upper then c.lower else c.upper, (opened c).kind⟩ := by
      rw [bounded, if_neg hbinary]
      rfl
    have hkind : (opened c).kind = kindBack c := by
      rw [opened, kindBack]
      cases hc : c.kind with
      | continuous => rfl
      | integer => rfl
      | binary =>
          have hno : (c.lower == .zero && c.upper == .one) = false := by simpa [hc] using hbinary
          simp [hno, VariableKind.isIntegral]
    rw [hread]
    refine ⟨rfl, Double.numEq_refl hlower, ?_, hkind⟩
    by_cases heq : c.lower == c.upper
    · rwa [if_pos heq]
    · rw [if_neg heq]
      exact Double.numEq_refl hupper

def programRead (p : Program) : Program :=
  let d := Reading.boundsRead p
  ⟨d.name, d.columns, d.rows.map (·.close), d.objective, d.offset, d.maximize⟩

theorem read_textLines (hnamed : Named p) (hp : Writable p) :
    read (String.join ((textLines p).map (· ++ "\n"))) = .ok (programRead p) := by
  obtain ⟨ss, htext, hleads⟩ := Reading.leads_text hnamed hp
  rw [htext]
  exact hleads.read rfl

theorem readsBack_programRead (hnamed : Named p) (hp : Writable p) : ReadsBack p (programRead p) := by
  have hobjective : (Reading.boundsRead p).objective =
      (List.range p.columns.length).flatMap (costBack p) := by
    rw [List.range_eq_range']
    exact List.flatMap_congr fun j _ => termsFor_objective hnamed.no_objective j
  have hrows : (Reading.boundsRead p).rows.map (·.close) =
      p.rows.map fun r => (rowRead p r).close := by
    simp only [Reading.boundsRead, Reading.rangesRead, Reading.rhsRead, Reading.columnsRead,
      Reading.entered, Reading.inPart, Reading.rowsRead, List.map_map]
    rfl
  constructor
  case name => rfl
  case maximize => rfl
  case columns =>
    refine List.forall₂_map_right_iff.mpr (List.forall₂_same.mpr fun c hc => ?_)
    exact columnBack (hp.column_bounds c hc)
  case rows =>
    rw [programRead, hrows]
    exact List.forall₂_map_right_iff.mpr (List.forall₂_same.mpr fun r hr => rowBack hnamed hp hr)
  case objective => exact hobjective
  case cost => exact cost_back hp hobjective
  case offset =>
    show ((Reading.boundsRead p).offset == p.offset) = true
    by_cases hzero : p.offset == .zero
    · rw [show (Reading.boundsRead p).offset = .zero from if_pos hzero]
      exact Double.numEq_symm hzero
    · rw [show (Reading.boundsRead p).offset = p.offset from if_neg hzero]
      exact Double.numEq_refl hp.offset

end LinOpt.Mps
