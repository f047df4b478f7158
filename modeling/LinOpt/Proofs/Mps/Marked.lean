import LinOpt.Proofs.Mps.Given
import LinOpt.Proofs.Mps.Kept

namespace LinOpt.Mps

/-- A line with few words: a record of this size has room for one entry at most. -/
def Short (s : String) : Prop := ∃ l, Reads s l ∧ l.words.length ≤ 4

def Indented (s : String) : Prop := ∃ ws, Reads s ⟨true, ws⟩ ∧ ws.length ≤ 4

theorem Indented.short {s : String} (h : Indented s) : Short s := by
  obtain ⟨ws, hreads, hlength⟩ := h
  exact ⟨⟨true, ws⟩, hreads, hlength⟩

section

variable {a b c : String}

theorem indented_record (ha : Text.isWord a = true) (hb : Text.isWord b = true)
    (hc : Text.isWord c = true) : Indented (record a b c) :=
  ⟨_, reads_record ha hb hc, show 3 ≤ 4 by decide⟩

theorem short_header (part : Section) : Short part.header :=
  ⟨_, reads_header part, show 1 ≤ 4 by decide⟩

variable {es : Entries} {name : String}

theorem indented_columnLines (hname : Text.isWord name = true)
    (hes : ∀ e ∈ es, Text.isWord e.1 = true) : ∀ s ∈ columnLines name es, Indented s := by
  intro s hs
  rw [columnLines_eq] at hs
  obtain ⟨e, he, rfl⟩ := List.mem_map.mp hs
  refine indented_record hname ?_ e.2.isWord_text
  rw [listed] at he
  split at he
  · rw [List.mem_singleton.mp he]
    exact isWord_objectiveName
  · exact hes e he

theorem indented_columnsPart {cs : List (Column × Entries)} (inBlock : Bool) (k : Nat)
    (hcs : ∀ c ∈ cs, Text.isWord c.1.name = true ∧ ∀ e ∈ c.2, Text.isWord e.1 = true) :
    ∀ s ∈ columnsPart inBlock k cs, Indented s := by
  have hmarker (k : Nat) (integral : Bool) : Indented (marker k integral) :=
    ⟨_, Reading.reads_marker k integral, show 3 ≤ 4 by decide⟩
  induction cs generalizing inBlock k with
  | nil =>
      intro s hs
      cases inBlock with
      | false => cases hs
      | true =>
          rw [List.mem_singleton.mp hs]
          exact hmarker k false
  | cons c cs ih =>
      obtain ⟨⟨hname, hes⟩, hcs⟩ := List.forall_mem_cons.mp hcs
      rw [Reading.columnsPart_cons]
      intro s hs
      rcases List.mem_append.mp hs with hs | hs
      · split at hs
        · cases hs
        · rw [List.mem_singleton.mp hs]
          exact hmarker k _
      · rcases List.mem_append.mp hs with hs | hs
        · exact indented_columnLines hname hes s hs
        · exact ih _ _ hcs s hs

end

section

variable {p : Program} {s : String}

theorem short_rhsPart (hnamed : Named p) (hs : s ∈ rhsPart p) : Short s := by
  have hset : Text.isWord "RHS" = true := by decide
  rw [rhsPart] at hs
  rcases List.mem_append.mp hs with hs | hs
  · split at hs
    · cases hs
    · rw [List.mem_singleton.mp hs]
      exact (indented_record hset isWord_objectiveName (Double.isWord_text _)).short
  · obtain ⟨r, hr, hs⟩ := List.mem_flatMap.mp hs
    cases hrhs : rowRhs r with
    | none =>
        rw [hrhs] at hs
        cases hs
    | some x =>
        rw [hrhs] at hs
        change s ∈ rhsLine r.name x at hs
        rw [rhsLine] at hs
        split at hs
        · cases hs
        · rw [List.mem_singleton.mp hs]
          exact (indented_record hset (hnamed.rows_word r hr) x.isWord_text).short

theorem short_rangesPart (hnamed : Named p) (hs : s ∈ rangesPart p) : Short s := by
  have hset : Text.isWord "RNG" = true := by decide
  rw [rangesPart] at hs
  split at hs
  · cases hs
  · rcases List.mem_cons.mp hs with rfl | hs
    · exact short_header .ranges
    · obtain ⟨x, hx, rfl⟩ := List.mem_map.mp hs
      obtain ⟨r, hr, hrange⟩ := List.mem_filterMap.mp hx
      obtain ⟨y, -, rfl⟩ := Option.map_eq_some_iff.mp hrange
      exact (indented_record hset (hnamed.rows_word r hr) y.isWord_text).short

theorem indented_boundLines {c : Column} (hname : Text.isWord c.name = true)
    (hs : s ∈ boundLines c) : Indented s := by
  have hplain (kind : String) (hkind : Text.isWord kind = true) : Indented (boundLine kind c.name) :=
    ⟨_, reads_boundLine hkind hname, show 3 ≤ 4 by decide⟩
  have hvalued (kind : String) (hkind : Text.isWord kind = true) (x : Double) :
      Indented (valueLine kind c.name x) :=
    ⟨_, reads_valueLine hkind hname x, show 4 ≤ 4 by decide⟩
  rw [boundLines] at hs
  split at hs
  · rw [List.mem_singleton.mp hs]
    exact hplain "BV" (by decide)
  · split at hs
    · rw [List.mem_singleton.mp hs]
      exact hvalued "FX" (by decide) c.lower
    · split at hs
      · rw [List.mem_singleton.mp hs]
        exact hplain "FR" (by decide)
      · rcases List.mem_cons.mp hs with rfl | hs
        · split
          · exact hvalued "LO" (by decide) c.lower
          · exact hplain "MI" (by decide)
        · rw [List.mem_singleton.mp hs]
          split
          · exact hvalued "UP" (by decide) c.upper
          · exact hplain "PL" (by decide)

theorem isWord_of_mem_columnEntries (hnamed : Named p) {j : Nat} {e : String × Double}
    (he : e ∈ columnEntries p j) : Text.isWord e.1 = true := by
  rcases mem_columnEntries he with rfl | ⟨r, hr, hname, -⟩
  · exact isWord_objectiveName
  · rw [hname]
    exact hnamed.rows_word r hr

theorem indented_columns (hnamed : Named p) :
    ∀ s ∈ columnsPart false 0 (p.columns.zipIdx.map fun (c, j) => (c, columnEntries p j)),
      Indented s := by
  refine indented_columnsPart false 0 fun x hx => ?_
  obtain ⟨⟨c, j⟩, hc, rfl⟩ := List.mem_map.mp hx
  exact ⟨hnamed.columns_word c (List.fst_mem_of_mem_zipIdx hc), fun e he =>
    isWord_of_mem_columnEntries hnamed he⟩

theorem indented_bounds (hnamed : Named p) : ∀ s ∈ p.columns.flatMap boundLines, Indented s := by
  intro s hs
  obtain ⟨c, hc, hs⟩ := List.mem_flatMap.mp hs
  exact indented_boundLines (hnamed.columns_word c hc) hs

theorem short_textLines (hnamed : Named p) : ∀ s ∈ textLines p, Short s := by
  intro s hs
  simp only [textLines, List.append_assoc, List.mem_append, List.mem_cons, List.cons_append,
    List.nil_append, List.not_mem_nil, or_false] at hs
  rcases hs with rfl | hs | rfl | rfl | hs | rfl | hs | rfl | hs | hs | rfl | hs | rfl
  · exact ⟨_, reads_name hnamed.title_word, show 2 ≤ 4 by decide⟩
  · split at hs
    · rcases List.mem_cons.mp hs with rfl | hs
      · exact short_header .sense
      · rw [List.mem_singleton.mp hs]
        exact ⟨_, reads_max, show 1 ≤ 4 by decide⟩
    · cases hs
  · exact short_header .rows
  · exact ⟨_, reads_objective, show 2 ≤ 4 by decide⟩
  · obtain ⟨r, hr, rfl⟩ := List.mem_map.mp hs
    exact ⟨_, reads_rowLine (hnamed.rows_word r hr), show 2 ≤ 4 by decide⟩
  · exact short_header .columns
  · exact (indented_columns hnamed s hs).short
  · exact short_header .rhs
  · exact short_rhsPart hnamed hs
  · exact short_rangesPart hnamed hs
  · exact short_header .bounds
  · exact (indented_bounds hnamed s hs).short
  · exact short_header .ended

end

theorem map_snd_numbered (text : String) :
    (Line.numbered text).map (·.2) = (Text.lines text).filterMap Line.ofChars? := by
  have hline (x : List Char × Nat) :
      ((Line.ofChars? x.1).map (x.2, ·)).map (·.2) = Line.ofChars? x.1 := by
    rw [Option.map_map]
    exact Option.map_id_apply
  have hnumbers := List.zipIdx_map_fst 1 (Text.lines text)
  rw [Line.numbered, List.map_filterMap]
  simp only [hline]
  rw [← hnumbers, List.filterMap_map, hnumbers]
  rfl

theorem filterMap_eq_of_reads {ss : List String} {ls : List Line} (h : List.Forall₂ Reads ss ls) :
    (ss.map String.toList).filterMap Line.ofChars? = ls := by
  induction h with
  | nil => rfl
  | cons hs _ ih => rw [List.map_cons, List.filterMap_cons_some hs.2, ih]

theorem recordsOf_join {ss : List String} {ls : List Line} (h : List.Forall₂ Reads ss ls) :
    recordsOf (String.join (ss.map (· ++ "\n"))) = records .start ls := by
  have hbreaks : ∀ s ∈ ss, '\n' ∉ s.toList := fun s hs =>
    (exists_mem_of_forall₂ h hs).elim fun _ hl => hl.2.1
  have hend : Line.ofChars? [] = none := rfl
  rw [recordsOf, map_snd_numbered, Text.lines_join hbreaks, List.filterMap_append,
    filterMap_eq_of_reads h, List.filterMap_cons_none hend, List.filterMap_nil, List.append_nil]

theorem mem_records {part : Section} {ls : List Line} {r : Record} (h : r ∈ records part ls) :
    ∃ l ∈ ls, r.words = l.words := by
  induction ls generalizing part with
  | nil => cases h
  | cons l ls ih =>
      have hrest {next : Section} (h : r ∈ records next ls) : ∃ l' ∈ l :: ls, r.words = l'.words := by
        obtain ⟨l', hl', hwords⟩ := ih h
        exact ⟨l', List.mem_cons_of_mem l hl', hwords⟩
      rw [records] at h
      split at h
      · rcases List.mem_cons.mp h with rfl | h
        · exact ⟨l, List.mem_cons_self, rfl⟩
        · exact hrest h
      · split at h
        · cases h
        · exact hrest h
        · exact hrest h

theorem length_of_mem_recordsOf {ss : List String} (hss : ∀ s ∈ ss, Short s) {r : Record}
    (h : r ∈ recordsOf (String.join (ss.map (· ++ "\n")))) : r.words.length ≤ 4 := by
  obtain ⟨ls, hls⟩ := exists_forall₂ hss
  rw [recordsOf_join (hls.imp fun _ _ hl => hl.1)] at h
  obtain ⟨l, hl, hwords⟩ := mem_records h
  rw [hwords]
  exact forall_of_forall₂ hls (fun _ _ h => h.2) l hl

/-- In a short record the row of an entry stands where a marker would. -/
theorem ne_marker_of_mem_columnContent {ws : List String} (hws : ws.length ≤ 4) :
    ∀ e ∈ (Record.columnContent ws).entries, e.row ≠ "'MARKER'" := by
  intro e he
  match ws, hws with
  | [], _ => cases he
  | [_], _ => cases he
  | [_, _], _ =>
      rw [Record.columnContent] at he
      split at he <;> cases he
  | [_, row, _], _ | [_, row, _, _], _ =>
      rw [Record.columnContent] at he
      split at he
      case isTrue => cases he
      case isFalse hne =>
        rw [List.mem_singleton.mp he]
        exact fun h => hne (congrArg some h)

theorem entries_rowContent (ws : List String) : (Record.rowContent ws).entries = [] := by
  rw [Record.rowContent.eq_def]
  split <;> rfl

theorem entries_content_of_ne {r : Record} (h : r.part ≠ .columns) : r.content.entries = [] := by
  rw [Record.content]
  split
  case h_1 => exact entries_rowContent r.words
  case h_2 hpart => exact absurd hpart h
  all_goals rfl

theorem mem_entries_contentOf {rs : List Record} {e : Entry} (h : e ∈ (contentOf rs).entries) :
    ∃ r ∈ rs, e ∈ (Record.columnContent r.words).entries := by
  induction rs with
  | nil => cases h
  | cons r rs ih =>
      rw [contentOf, List.foldr_cons, Content.entries_append] at h
      rcases List.mem_append.mp h with h | h
      · refine ⟨r, List.mem_cons_self, ?_⟩
        have hpart : r.part = .columns := by
          by_contra hne
          rw [entries_content_of_ne hne] at h
          cases h
        rwa [Record.content, hpart] at h
      · obtain ⟨r', hr', he⟩ := ih h
        exact ⟨r', List.mem_cons_of_mem r hr', he⟩

theorem entriesFor_marker {ss : List String} (hss : ∀ s ∈ ss, Short s) :
    (contentOf (recordsOf (String.join (ss.map (· ++ "\n"))))).entriesFor "'MARKER'" = [] := by
  refine List.filter_eq_nil_iff.mpr fun e he hrow => ?_
  obtain ⟨r, hr, he⟩ := mem_entries_contentOf he
  exact ne_marker_of_mem_columnContent (length_of_mem_recordsOf hss hr) e he (eq_of_beq hrow)

section

variable {p q : Program} {text : String}

theorem markerFree_of_read (hnamed : Named p)
    (h : read (String.join ((textLines p).map (· ++ "\n"))) = .ok q) : MarkerFree q := by
  obtain ⟨d, hlines, hprogram⟩ := read_eq_ok h
  obtain ⟨htracks, hsound⟩ := Reading.lines_tracks hlines
  refine forall_of_forall₂ (htracks.gives hsound hprogram).rows fun _ r hr hname => ?_
  have hterms := hr.terms
  rw [hname, entriesFor_marker (short_textLines hnamed)] at hterms
  exact List.forall₂_nil_left_iff.mp hterms

theorem eq_nil_of_countP {ts : List (Nat × Double)} (h : ∀ j, ts.countP (·.1 == j) = 0) : ts = [] :=
  List.eq_nil_iff_forall_not_mem.mpr fun t ht =>
    List.countP_eq_zero.mp (h t.1) t ht BEq.rfl

theorem Keeps.markerFree_iff (h : Keeps p q) : MarkerFree p ↔ MarkerFree q := by
  refine forall_iff_of_forall₂ (h.rows.imp ?_)
  rintro r s ⟨hname, hcount⟩
  rw [hname]
  refine imp_congr_right fun _ => ⟨fun hr => ?_, fun hs => ?_⟩
  · exact eq_nil_of_countP fun j => (hcount j).trans (by rw [hr]; rfl)
  · exact eq_nil_of_countP fun j => (hcount j).symm.trans (by rw [hs]; rfl)

/-- Written text is read back with every column, row and term, exactly if no row with terms has the
name of a marker. Numbers and bounds do not matter. -/
theorem write_kept_iff (hp : p.InRange) (h : write p = .ok text) :
    (∃ q, read text = .ok q ∧ Keeps p q) ↔ MarkerFree p := by
  obtain ⟨hnamed, rfl⟩ := write_eq_ok h
  constructor
  · rintro ⟨q, hread, hkeeps⟩
    exact hkeeps.markerFree_iff.mpr (markerFree_of_read hnamed hread)
  · intro hmarker
    exact exists_read_keeps hnamed hp hmarker

def unordered : Program where
  name := ""
  columns := [⟨"RHS", .one, .zero, .integer⟩, ⟨"*y", .zero, .infinity, .continuous⟩]
  rows := [⟨"ROWS", [(1, .nan), (0, .one), (1, .one)], .one, .zero⟩, ⟨"'MARKER'", [], .zero, .one⟩]
  objective := [(1, .infinity)]
  offset := .nan
  maximize := true

theorem write_kept_unordered :
    ∃ text q, write unordered = .ok text ∧ read text = .ok q ∧ Keeps unordered q := by
  have hwrite := write_of_check (show check unordered = .ok () from rfl)
  have hp : unordered.InRange := ⟨by decide, by decide⟩
  have hmarker : MarkerFree unordered := by
    rintro r hr hname
    rcases List.mem_cons.mp hr with rfl | hr
    · exact absurd hname (by decide)
    · rw [List.mem_singleton.mp hr]
  obtain ⟨q, hread, hkeeps⟩ := (write_kept_iff hp hwrite).mpr hmarker
  exact ⟨_, q, hwrite, hread, hkeeps⟩

def marked : Program where
  name := "m"
  columns := [⟨"x", .zero, .infinity, .continuous⟩]
  rows := [⟨"'MARKER'", [(0, .ofInt 2)], .negInfinity, .ofInt 4⟩]
  objective := [(0, .one)]
  offset := .zero
  maximize := false

/-- The text is written and can be read, but the term is taken for a marker. -/
theorem marked_not_kept : marked.InRange ∧ ∃ text, write marked = .ok text ∧
    (read text).toOption.map (fun q => q.rows.map (·.terms.length)) = some [0] ∧
      ¬ ∃ q, read text = .ok q ∧ Keeps marked q := by
  have hwrite := write_of_check (show check marked = .ok () from rfl)
  refine ⟨⟨by decide, by decide⟩, _, hwrite, by decide +kernel, ?_⟩
  rintro ⟨q, hread, hkeeps⟩
  have hmarker := hkeeps.markerFree_iff.mpr (markerFree_of_read (write_eq_ok hwrite).1 hread)
  exact absurd (hmarker _ List.mem_cons_self rfl) (List.cons_ne_nil _ _)

end

end LinOpt.Mps
