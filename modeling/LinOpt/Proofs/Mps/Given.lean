import LinOpt.Proofs.Mps.Recorded

namespace LinOpt.Mps

def boundsGiven (c : Content) (kind : RowKind) (name : String) : Double × Double :=
  OpenRow.bounds
    { name, kind, rhs := (lastNumber c.rhs name).getD .zero, range := lastNumber c.ranges name }

structure RowGiven (c : Content) (columns : List String) (declaration : String × String) (r : Row) :
    Prop where
  name : r.name = declaration.2
  terms : List.Forall₂ (Places columns) (c.entriesFor r.name) r.terms
  bounds : ∃ kind, rowKind? declaration.1 = some kind ∧ (r.lower, r.upper) = boundsGiven c kind r.name

/-- Columns, rows, terms, bounds and offset of the program are what the content says, and there is
nothing in the content that they do not show. -/
structure Gives (c : Content) (p : Program) : Prop where
  columns : p.columns.map (·.name) = c.columns.eraseDups
  rows : List.Forall₂ (RowGiven c (p.columns.map (·.name))) c.rows p.rows
  objectiveRow : c.objectiveRow.isSome = true
  objective : List.Forall₂ (Places (p.columns.map (·.name))) c.objectiveEntries p.objective
  offset : p.offset = c.offset
  distinct : (c.objectiveRow.toList ++ p.rows.map (·.name)).Nodup
  entries_known : ∀ e ∈ c.entries, e.row ∈ c.objectiveRow.toList ++ p.rows.map (·.name)
  rhs_known : ∀ x ∈ c.rhs,
    x.1 ∈ c.objectiveRow.toList ++ p.rows.map (·.name) ∧ (Double.parse? x.2).isSome = true
  ranges_known : ∀ x ∈ c.ranges, x.1 ∈ p.rows.map (·.name) ∧ (Double.parse? x.2).isSome = true

theorem RowTracks.close {c : Content} {columns : List String} {declaration : String × String}
    {r : OpenRow} (h : RowTracks c columns declaration r) :
    RowGiven c columns declaration r.close where
  name := h.name
  terms := h.terms
  bounds := by
    refine ⟨r.kind, h.kind, ?_⟩
    show r.bounds = _
    rw [boundsGiven, OpenRow.bounds, OpenRow.bounds, h.rhs, h.range]
    rfl

namespace Reading

variable {d : Reading} {c : Content}

theorem toProgram_eq_ok {p : Program} (h : d.toProgram = .ok p) :
    d.objectiveRow.isSome = true ∧
      p = ⟨d.name, d.columns, d.rows.map (·.close), d.objective, d.offset, d.maximize⟩ := by
  rw [toProgram] at h
  split at h
  case isTrue => cases h
  case isFalse hsome =>
    cases h
    exact ⟨Option.isNone_eq_false_iff.mp (Bool.eq_false_iff.mpr hsome), rfl⟩

theorem names_close (rs : List OpenRow) : (rs.map (·.close)).map (·.name) = rs.map (·.name) := by
  rw [List.map_map]
  rfl

theorem Knows.mem {name : String} (h : d.Knows name) :
    name ∈ d.objectiveRow.toList ++ d.rows.map (·.name) := by
  rcases h with h | h
  · exact List.mem_append_left _ (Option.mem_toList.mpr h)
  · exact List.mem_append_right _ h

theorem Tracks.gives {p : Program} (hd : Tracks c d) (hsound : Sound d) (h : d.toProgram = .ok p) :
    Gives c p := by
  obtain ⟨hobjective, rfl⟩ := toProgram_eq_ok h
  have hnames := names_close d.rows
  constructor
  case columns => exact hd.columns
  case rows => exact List.forall₂_map_right_iff.mpr (hd.rows.imp fun _ _ h => h.close)
  case objectiveRow => exact hd.objectiveRow ▸ hobjective
  case objective => exact hd.objective
  case offset => exact hd.offset
  case distinct =>
    rw [hnames, ← hd.objectiveRow, List.nodup_append]
    refine ⟨by cases d.objectiveRow <;> simp, hsound.rows_nodup, ?_⟩
    rintro name hname _ hrow rfl
    exact hsound.objective_fresh name (Option.mem_toList.mp hname) hrow
  case entries_known =>
    rw [hnames, ← hd.objectiveRow]
    exact fun e he => (hd.entries_known e he).mem
  case rhs_known =>
    rw [hnames, ← hd.objectiveRow]
    exact fun x hx => (hd.rhs_known x hx).imp_left Knows.mem
  case ranges_known =>
    rw [hnames]
    exact hd.ranges_known

end Reading

theorem read_eq_ok {text : String} {p : Program} (h : read text = .ok p) :
    ∃ d, Reading.lines {} (Line.numbered text) = .ok d ∧ d.toProgram = .ok p :=
  Except.bind_eq_ok.mp h

theorem columns_nodup_of_read {text : String} {p : Program} (h : read text = .ok p) :
    (p.columns.map (·.name)).Nodup := by
  obtain ⟨d, hlines, hprogram⟩ := read_eq_ok h
  obtain ⟨-, hsound⟩ := Reading.lines_tracks hlines
  obtain ⟨-, rfl⟩ := Reading.toProgram_eq_ok hprogram
  exact hsound.columns_nodup

end LinOpt.Mps
