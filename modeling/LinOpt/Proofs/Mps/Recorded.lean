import LinOpt.Proofs.Lists
import LinOpt.Proofs.Mps.Sound

namespace LinOpt.Mps

structure Places (columns : List String) (e : Entry) (t : Nat × Double) : Prop where
  column : columns[t.1]? = some e.column
  number : Double.parse? e.number = some t.2

theorem Places.append {columns : List String} {e : Entry} {t : Nat × Double}
    (h : Places columns e t) (more : List String) : Places (columns ++ more) e t where
  column := by
    obtain ⟨hlt, -⟩ := List.getElem?_eq_some_iff.mp h.column
    rw [List.getElem?_append_left hlt]
    exact h.column
  number := h.number

theorem lastNumber_append_self (ps : List (String × String)) (row number : String) :
    lastNumber (ps ++ [(row, number)]) row = Double.parse? number := by
  simp [lastNumber, List.filter_append]

theorem lastNumber_append_of_ne (ps : List (String × String)) {row other : String}
    (h : other ≠ row) (number : String) :
    lastNumber (ps ++ [(other, number)]) row = lastNumber ps row := by
  simp [lastNumber, List.filter_append, h]

theorem lastNumber_eq_none {ps : List (String × String)} {row : String} (h : ∀ p ∈ ps, p.1 ≠ row) :
    lastNumber ps row = none := by
  have hnone : ps.filter (·.1 == row) = [] :=
    List.filter_eq_nil_iff.mpr fun p hp => mt eq_of_beq (h p hp)
  rw [lastNumber, hnone]
  rfl

namespace Content

variable {c : Content} {kind name : String}

def objectiveEntries (c : Content) : List Entry := (c.objectiveRow.map c.entriesFor).getD []

def offset (c : Content) : Double := ((c.objectiveRow.bind (lastNumber c.rhs)).map (-·)).getD .zero

theorem objectiveEntries_of_none (h : c.objectiveRow = none) : c.objectiveEntries = [] := by
  rw [objectiveEntries, h]
  rfl

theorem objectiveEntries_of_some (h : c.objectiveRow = some name) :
    c.objectiveEntries = c.entriesFor name := by
  rw [objectiveEntries, h]
  rfl

theorem offset_of_none (h : c.objectiveRow = none) : c.offset = .zero := by
  rw [offset, h]
  rfl

theorem offset_of_some (h : c.objectiveRow = some name) :
    c.offset = ((lastNumber c.rhs name).map (-·)).getD .zero := by
  rw [offset, h]
  rfl

theorem entriesFor_snoc_self (c : Content) (e : Entry) :
    { c with entries := c.entries ++ [e] }.entriesFor e.row = c.entriesFor e.row ++ [e] := by
  simp [entriesFor, List.filter_append]

theorem entriesFor_snoc_of_ne (c : Content) {e : Entry} {row : String} (h : row ≠ e.row) :
    { c with entries := c.entries ++ [e] }.entriesFor row = c.entriesFor row := by
  simp [entriesFor, List.filter_append, Ne.symm h]

theorem objectiveEntries_snoc_of_ne {e : Entry} (h : c.objectiveRow ≠ some e.row) :
    { c with entries := c.entries ++ [e] }.objectiveEntries = c.objectiveEntries := by
  let c' := { c with entries := c.entries ++ [e] }
  cases hc : c.objectiveRow with
  | none => exact (objectiveEntries_of_none (c := c') hc).trans (objectiveEntries_of_none hc).symm
  | some row =>
      have hne : row ≠ e.row := fun heq => h (hc.trans (congrArg some heq))
      calc
        c'.objectiveEntries = c'.entriesFor row := objectiveEntries_of_some (c := c') hc
        _ = c.entriesFor row := c.entriesFor_snoc_of_ne hne
        _ = c.objectiveEntries := (objectiveEntries_of_some hc).symm

theorem offset_snoc_of_ne {row number : String} (h : c.objectiveRow ≠ some row) :
    { c with rhs := c.rhs ++ [(row, number)] }.offset = c.offset := by
  let c' := { c with rhs := c.rhs ++ [(row, number)] }
  cases hc : c.objectiveRow with
  | none => exact (offset_of_none (c := c') hc).trans (offset_of_none hc).symm
  | some other =>
      have hne : row ≠ other := fun heq => h (hc.trans (congrArg some heq.symm))
      rw [offset_of_some hc, ← lastNumber_append_of_ne c.rhs hne number]
      exact offset_of_some (c := c') hc

theorem not_isFree_of_objectiveRow (h : c.objectiveRow = none) :
    ∀ d ∈ c.declarations, ¬ isFree d = true :=
  List.find?_eq_none.mp (Option.map_eq_none_iff.mp h)

theorem declare_objective (hnone : c.objectiveRow = none) (hfree : isFree (kind, name) = true) :
    let c' := { c with declarations := c.declarations ++ [(kind, name)] }
    c'.objectiveRow = some name ∧ c'.rows = c.rows := by
  have hfind := Option.map_eq_none_iff.mp hnone
  have hnot := not_isFree_of_objectiveRow hnone
  constructor
  · rw [objectiveRow, List.find?_append, hfind, List.find?_cons_of_pos hfree]
    rfl
  · rw [rows, rows, List.eraseP_append_right _ hnot, List.eraseP_cons_of_pos hfree,
      List.eraseP_of_forall_not hnot, List.append_nil]

theorem declare_row (hsome : isFree (kind, name) = true → c.objectiveRow.isSome = true) :
    let c' := { c with declarations := c.declarations ++ [(kind, name)] }
    c'.objectiveRow = c.objectiveRow ∧ c'.rows = c.rows ++ [(kind, name)] := by
  cases hfind : c.declarations.find? isFree with
  | some d =>
      have hmem := List.mem_of_find?_eq_some hfind
      have hfree := List.find?_some hfind
      constructor
      · rw [objectiveRow, objectiveRow, List.find?_append, hfind]
        rfl
      · rw [rows, rows, List.eraseP_append_left hfree _ hmem]
  | none =>
      have hnone : c.objectiveRow = none := Option.map_eq_none_iff.mpr hfind
      have hnot : ¬ isFree (kind, name) = true := fun h => by simpa [hnone] using hsome h
      have hnots := not_isFree_of_objectiveRow hnone
      constructor
      · rw [objectiveRow, objectiveRow, List.find?_append, hfind, List.find?_cons_of_neg hnot]
        rfl
      · rw [rows, rows, List.eraseP_append_right _ hnots, List.eraseP_cons_of_neg hnot,
          List.eraseP_of_forall_not hnots]
        rfl

end Content

structure RowTracks (c : Content) (columns : List String) (declaration : String × String)
    (r : OpenRow) : Prop where
  name : r.name = declaration.2
  kind : rowKind? declaration.1 = some r.kind
  terms : List.Forall₂ (Places columns) (c.entriesFor r.name) r.terms
  rhs : r.rhs = (lastNumber c.rhs r.name).getD .zero
  range : r.range = lastNumber c.ranges r.name

namespace Reading

def Knows (d : Reading) (name : String) : Prop :=
  d.objectiveRow = some name ∨ name ∈ d.rows.map (·.name)

structure Tracks (c : Content) (d : Reading) : Prop where
  columns : d.columns.map (·.name) = c.columns.eraseDups
  objectiveRow : d.objectiveRow = c.objectiveRow
  rows : List.Forall₂ (RowTracks c (d.columns.map (·.name))) c.rows d.rows
  objective : List.Forall₂ (Places (d.columns.map (·.name))) c.objectiveEntries d.objective
  offset : d.offset = c.offset
  entries_known : ∀ e ∈ c.entries, d.Knows e.row
  rhs_known : ∀ p ∈ c.rhs, d.Knows p.1 ∧ (Double.parse? p.2).isSome = true
  ranges_known : ∀ p ∈ c.ranges, p.1 ∈ d.rows.map (·.name) ∧ (Double.parse? p.2).isSome = true

variable {d e : Reading} {c a : Content} {name : String}

theorem forall₂_withRow {α : Type} {R S : α → OpenRow → Prop} {xs : List α} {f : OpenRow → OpenRow}
    (h : List.Forall₂ R xs d.rows) (hnamed : ∀ x r, R x r → r.name = name → S x (f r))
    (hother : ∀ x r, R x r → r.name ≠ name → S x r) : List.Forall₂ S xs (d.withRow name f).rows := by
  refine List.forall₂_map_right_iff.mpr (h.imp fun x r hr => ?_)
  split
  case isTrue hname => exact hnamed x r hr (beq_iff_eq.mp hname)
  case isFalse hname => exact hother x r hr (mt beq_iff_eq.mpr hname)

theorem forall₂_of_fresh {α : Type} {R S : α → OpenRow → Prop} {xs : List α} {rs : List OpenRow}
    (h : List.Forall₂ R xs rs) (hfresh : name ∉ rs.map (·.name))
    (hother : ∀ x r, R x r → r.name ≠ name → S x r) : List.Forall₂ S xs rs := by
  induction h with
  | nil => exact .nil
  | cons hr _ ih =>
      rw [List.map_cons, List.mem_cons, not_or] at hfresh
      exact .cons (hother _ _ hr (Ne.symm hfresh.1)) (ih hfresh.2)

theorem getElem?_of_column? {j : Nat} (h : d.column? name = some j) :
    (d.columns.map (·.name))[j]? = some name := by
  obtain ⟨hlt, hj, -⟩ := List.findIdx?_eq_some_iff_getElem.mp h
  rw [List.getElem?_map, List.getElem?_eq_getElem hlt]
  exact congrArg some (eq_of_beq hj)

theorem Knows.withRow {f : OpenRow → OpenRow}
    (hnames : (d.withRow name f).rows.map (·.name) = d.rows.map (·.name)) {row : String}
    (h : d.Knows row) : (d.withRow name f).Knows row := h.imp_right fun h => hnames.symm ▸ h

namespace Tracks

theorem entriesFor_eq_nil (hd : Tracks c d) (hname : ¬ d.Knows name) : c.entriesFor name = [] := by
  refine List.filter_eq_nil_iff.mpr fun e he heq => hname ?_
  rw [← eq_of_beq heq]
  exact hd.entries_known e he

theorem lastRhs_eq_none (hd : Tracks c d) (hname : ¬ d.Knows name) : lastNumber c.rhs name = none :=
  lastNumber_eq_none fun p hp heq => hname (heq ▸ (hd.rhs_known p hp).1)

theorem lastRange_eq_none (hd : Tracks c d) (hname : ¬ d.Knows name) :
    lastNumber c.ranges name = none :=
  lastNumber_eq_none fun p hp heq => hname (.inr (heq ▸ (hd.ranges_known p hp).1))

theorem declareObjective {kind : String} (hd : Tracks c d) (hnone : d.objectiveRow = none)
    (hfree : Content.isFree (kind, name) = true) (hfresh : name ∉ d.rows.map (·.name)) :
    Tracks { c with declarations := c.declarations ++ [(kind, name)] }
      { d with objectiveRow := some name } := by
  have hunknown : ¬ d.Knows name := by
    rintro (h | h)
    · rw [hnone] at h
      cases h
    · exact hfresh h
  have hcnone := hd.objectiveRow.symm.trans hnone
  obtain ⟨hobj, hrows⟩ := Content.declare_objective hcnone hfree
  have hknows {row : String} (h : d.Knows row) : { d with objectiveRow := some name }.Knows row := by
    rcases h with h | h
    · rw [hnone] at h
      cases h
    · exact .inr h
  constructor
  case columns => exact hd.columns
  case objectiveRow => exact hobj.symm
  case rows =>
    rw [hrows]
    exact hd.rows.imp fun _ _ h => { h with }
  case objective =>
    have hold := hd.objective
    rw [Content.objectiveEntries_of_none hcnone] at hold
    rw [Content.objectiveEntries_of_some hobj]
    exact (hd.entriesFor_eq_nil hunknown).symm ▸ hold
  case offset =>
    have hold := hd.offset
    rw [Content.offset_of_none hcnone] at hold
    rw [Content.offset_of_some hobj]
    exact (hd.lastRhs_eq_none hunknown).symm ▸ hold
  case entries_known => exact fun e he => hknows (hd.entries_known e he)
  case rhs_known => exact fun p hp => (hd.rhs_known p hp).imp_left hknows
  case ranges_known => exact hd.ranges_known

theorem declareRow {kind : String} {k : RowKind} (hd : Tracks c d) (hkind : rowKind? kind = some k)
    (hsome : Content.isFree (kind, name) = true → d.objectiveRow.isSome = true)
    (hobj : d.objectiveRow ≠ some name) (hfresh : name ∉ d.rows.map (·.name)) :
    Tracks { c with declarations := c.declarations ++ [(kind, name)] } (d.addRow name k) := by
  have hunknown : ¬ d.Knows name := not_or.mpr ⟨hobj, hfresh⟩
  obtain ⟨hobjective, hrows⟩ := Content.declare_row (hd.objectiveRow ▸ hsome)
  have hnames : (d.addRow name k).rows.map (·.name) = d.rows.map (·.name) ++ [name] := List.map_append
  have hmem {row : String} (h : row ∈ d.rows.map (·.name)) :
      row ∈ (d.addRow name k).rows.map (·.name) := hnames ▸ List.mem_append_left [name] h
  constructor
  case columns => exact hd.columns
  case objectiveRow => exact hd.objectiveRow.trans hobjective.symm
  case rows =>
    rw [hrows]
    refine List.rel_append (hd.rows.imp fun _ _ h => { h with }) (.cons ?_ .nil)
    exact {
      name := rfl
      kind := hkind
      terms := (hd.entriesFor_eq_nil hunknown).symm ▸ List.Forall₂.nil
      rhs := (hd.lastRhs_eq_none hunknown).symm ▸ rfl
      range := (hd.lastRange_eq_none hunknown).symm }
  case objective =>
    rw [Content.objectiveEntries, hobjective]
    exact hd.objective
  case offset =>
    rw [Content.offset, hobjective]
    exact hd.offset
  case entries_known => exact fun e he => (hd.entries_known e he).imp_right hmem
  case rhs_known => exact fun p hp => (hd.rhs_known p hp).imp_left (Or.imp_right hmem)
  case ranges_known => exact fun p hp => (hd.ranges_known p hp).imp_left hmem

theorem openColumn (hd : Tracks c d) (name : String) :
    Tracks { c with columns := c.columns ++ [name] } (d.openColumn name).1 := by
  rcases openColumn_columns d name with ⟨hmem, hsame⟩ | ⟨hfresh, column, rfl, hnew⟩
  · rw [hsame]
    rw [hd.columns, List.mem_eraseDups] at hmem
    exact { hd with
      columns := hd.columns.trans (eraseDups_snoc_of_mem hmem).symm
      rows := hd.rows.imp fun _ _ h => { h with } }
  · rw [hnew]
    have hnames : (d.columns ++ [column]).map (·.name) = d.columns.map (·.name) ++ [column.name] :=
      List.map_append
    have hplaces {es : List Entry} {ts : List (Nat × Double)}
        (h : List.Forall₂ (Places (d.columns.map (·.name))) es ts) :
        List.Forall₂ (Places ((d.columns ++ [column]).map (·.name))) es ts :=
      h.imp fun _ _ h => hnames ▸ h.append [column.name]
    rw [hd.columns, List.mem_eraseDups] at hfresh
    exact { hd with
      columns := by
        rw [hnames, hd.columns]
        exact (eraseDups_snoc_of_not_mem hfresh).symm
      rows := hd.rows.imp fun _ _ h => { h with terms := hplaces h.terms }
      objective := hplaces hd.objective }

theorem cost {e : Entry} {j : Nat} {x : Double} (hd : Tracks c d) (hsound : Sound d)
    (hcolumn : d.column? e.column = some j) (hx : Double.parse? e.number = some x)
    (hobj : d.objectiveRow = some e.row) :
    Tracks { c with entries := c.entries ++ [e] } { d with objective := d.objective ++ [(j, x)] } := by
  have hcobj := hd.objectiveRow.symm.trans hobj
  have hknown : ∀ e' ∈ c.entries ++ [e], d.Knows e'.row :=
    List.forall_mem_append.mpr ⟨hd.entries_known, List.forall_mem_singleton.mpr (.inl hobj)⟩
  refine { hd with rows := ?_, objective := ?_, entries_known := hknown }
  · refine forall₂_of_fresh hd.rows (hsound.objective_fresh e.row hobj) fun p r h hne => ?_
    exact { h with terms := (c.entriesFor_snoc_of_ne hne).symm ▸ h.terms }
  · have hold := hd.objective
    rw [Content.objectiveEntries_of_some hcobj] at hold
    have hlast : Places (d.columns.map (·.name)) e (j, x) := ⟨getElem?_of_column? hcolumn, hx⟩
    have hnew := Content.objectiveEntries_of_some (c := { c with entries := c.entries ++ [e] }) hcobj
    rw [hnew, Content.entriesFor_snoc_self]
    exact List.rel_append hold (.cons hlast .nil)

theorem term {e : Entry} {j : Nat} {x : Double} (hd : Tracks c d)
    (hcolumn : d.column? e.column = some j) (hx : Double.parse? e.number = some x)
    (hobj : d.objectiveRow ≠ some e.row) (hrow : e.row ∈ d.rows.map (·.name)) :
    Tracks { c with entries := c.entries ++ [e] }
      (d.withRow e.row fun r => { r with terms := r.terms ++ [(j, x)] }) := by
  have hnames := names_withRow (f := fun r => { r with terms := r.terms ++ [(j, x)] })
    (fun _ => rfl) d e.row
  have hlast : Places (d.columns.map (·.name)) e (j, x) := ⟨getElem?_of_column? hcolumn, hx⟩
  refine { hd with
    rows := forall₂_withRow hd.rows (fun p r h hname => ?_) fun p r h hne => ?_
    objective := ?_
    entries_known := ?_
    rhs_known := fun p hp => (hd.rhs_known p hp).imp_left (.withRow hnames)
    ranges_known := hnames.symm ▸ hd.ranges_known }
  · have hterms := h.terms
    rw [hname] at hterms
    refine { h with terms := ?_ }
    dsimp only
    rw [hname, Content.entriesFor_snoc_self]
    exact List.rel_append hterms (.cons hlast .nil)
  · exact { h with terms := (c.entriesFor_snoc_of_ne hne).symm ▸ h.terms }
  · rw [hd.objectiveRow] at hobj
    rw [Content.objectiveEntries_snoc_of_ne hobj]
    exact hd.objective
  · refine List.forall_mem_append.mpr ⟨fun e' he' => ?_, List.forall_mem_singleton.mpr ?_⟩
    · exact (hd.entries_known e' he').withRow hnames
    · exact .inr (hnames.symm ▸ hrow)

theorem objectiveRhs {row number : String} {x : Double} (hd : Tracks c d) (hsound : Sound d)
    (hx : Double.parse? number = some x) (hobj : d.objectiveRow = some row) :
    Tracks { c with rhs := c.rhs ++ [(row, number)] } { d with offset := -x } := by
  have hcobj := hd.objectiveRow.symm.trans hobj
  have hnumber : (Double.parse? number).isSome = true := by
    rw [hx]
    rfl
  refine { hd with
    rows := forall₂_of_fresh hd.rows (hsound.objective_fresh row hobj) fun p r h hne => ?_
    offset := ?_
    rhs_known := List.forall_mem_append.mpr
      ⟨hd.rhs_known, List.forall_mem_singleton.mpr ⟨.inl hobj, hnumber⟩⟩ }
  · exact { h with rhs := (lastNumber_append_of_ne c.rhs hne.symm number).symm ▸ h.rhs }
  · have hnew := Content.offset_of_some (c := { c with rhs := c.rhs ++ [(row, number)] }) hcobj
    rw [lastNumber_append_self, hx] at hnew
    exact hnew.symm

theorem rhs {row number : String} {x : Double} (hd : Tracks c d)
    (hx : Double.parse? number = some x) (hobj : d.objectiveRow ≠ some row)
    (hrow : row ∈ d.rows.map (·.name)) :
    Tracks { c with rhs := c.rhs ++ [(row, number)] } (d.withRow row fun r => { r with rhs := x }) := by
  have hnames := names_withRow (f := fun r => { r with rhs := x }) (fun _ => rfl) d row
  have hnumber : (Double.parse? number).isSome = true := by
    rw [hx]
    rfl
  refine { hd with
    rows := forall₂_withRow hd.rows (fun p r h hname => ?_) fun p r h hne => ?_
    offset := ?_
    entries_known := fun e he => (hd.entries_known e he).withRow hnames
    rhs_known := ?_
    ranges_known := hnames.symm ▸ hd.ranges_known }
  · refine { h with rhs := ?_ }
    dsimp only
    rw [hname, lastNumber_append_self, hx]
    rfl
  · exact { h with rhs := (lastNumber_append_of_ne c.rhs hne.symm number).symm ▸ h.rhs }
  · rw [hd.objectiveRow] at hobj
    rw [Content.offset_snoc_of_ne hobj]
    exact hd.offset
  · refine List.forall_mem_append.mpr ⟨fun p hp => ?_, List.forall_mem_singleton.mpr ?_⟩
    · exact (hd.rhs_known p hp).imp_left (.withRow hnames)
    · exact ⟨.inr (hnames.symm ▸ hrow), hnumber⟩

theorem range {row number : String} {x : Double} (hd : Tracks c d)
    (hx : Double.parse? number = some x) (hrow : row ∈ d.rows.map (·.name)) :
    Tracks { c with ranges := c.ranges ++ [(row, number)] }
      (d.withRow row fun r => { r with range := some x }) := by
  have hnames := names_withRow (f := fun r => { r with range := some x }) (fun _ => rfl) d row
  have hnumber : (Double.parse? number).isSome = true := by
    rw [hx]
    rfl
  refine { hd with
    rows := forall₂_withRow hd.rows (fun p r h hname => ?_) fun p r h hne => ?_
    entries_known := fun e he => (hd.entries_known e he).withRow hnames
    rhs_known := fun p hp => (hd.rhs_known p hp).imp_left (.withRow hnames)
    ranges_known := hnames.symm ▸ List.forall_mem_append.mpr
      ⟨hd.ranges_known, List.forall_mem_singleton.mpr ⟨hrow, hnumber⟩⟩ }
  · refine { h with range := ?_ }
    dsimp only
    rw [hname, lastNumber_append_self, hx]
  · exact { h with range := (lastNumber_append_of_ne c.ranges hne.symm number).symm ▸ h.range }

theorem bounds {cs : List Column} (hd : Tracks c d)
    (hnames : cs.map (·.name) = d.columns.map (·.name)) : Tracks c { d with columns := cs } :=
  { hd with
    columns := hnames.trans hd.columns
    rows := hnames.symm ▸ hd.rows
    objective := hnames.symm ▸ hd.objective }

end Tracks

/-- What a move says is added to what is tracked. -/
theorem Move.tracks (h : Move d a e) (hd : Tracks c d) (hsound : Sound d) : Tracks (c ++ a) e := by
  cases h with
  | frame part maximize integral hname =>
      rw [Content.append_nil]
      exact { hd with }
  | objective hnone hkind hfresh =>
      rw [Content.append_declarations]
      exact hd.declareObjective hnone hkind hfresh
  | row hkind hsome hobj hfresh hword =>
      rw [Content.append_declarations]
      exact hd.declareRow hkind hsome hobj hfresh
  | column hword =>
      rw [Content.append_columns]
      exact hd.openColumn _
  | cost hcolumn hx hobj =>
      rw [Content.append_entries]
      exact hd.cost hsound hcolumn hx hobj
  | term hcolumn hx hobj hrow =>
      rw [Content.append_entries]
      exact hd.term hcolumn hx hobj hrow
  | offset hx hobj =>
      rw [Content.append_rhs]
      exact hd.objectiveRhs hsound hx hobj
  | rhs hx hobj hrow =>
      rw [Content.append_rhs]
      exact hd.rhs hx hobj hrow
  | range hx hrow =>
      rw [Content.append_ranges]
      exact hd.range hx hrow
  | bounds hnames =>
      rw [Content.append_nil]
      exact hd.bounds hnames

theorem Moves.tracks (h : Moves d a e) (hd : Tracks c d) (hsound : Sound d) : Tracks (c ++ a) e :=
  (h.preserves (P := fun c d => Tracks c d ∧ Sound d)
    (fun hd hmove => ⟨hmove.tracks hd.1 hd.2, hmove.sound hd.2⟩) ⟨hd, hsound⟩).1

theorem tracks_start : Tracks {} {} where
  columns := rfl
  objectiveRow := rfl
  rows := .nil
  objective := .nil
  offset := rfl
  entries_known := List.forall_mem_nil _
  rhs_known := List.forall_mem_nil _
  ranges_known := List.forall_mem_nil _

theorem lines_tracks {text : String} (h : lines {} (Line.numbered text) = .ok d) :
    Tracks (contentOf (recordsOf text)) d ∧ Sound d := by
  have hmoves := lines_moves worded_numbered h
  exact ⟨hmoves.tracks tracks_start sound_start, hmoves.sound sound_start⟩

end Reading

end LinOpt.Mps
