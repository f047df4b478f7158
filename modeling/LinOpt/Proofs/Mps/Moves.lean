import LinOpt.Proofs.Except
import LinOpt.Proofs.Mps.Columns
import LinOpt.Proofs.Mps.Records

namespace LinOpt.Mps.Reading

def withRow (d : Reading) (name : String) (f : OpenRow → OpenRow) : Reading :=
  { d with rows := d.rows.map fun r => if r.name == name then f r else r }

/-- What one line can do to a reading, and what it adds to the content of the text. -/
inductive Move (d : Reading) : Content → Reading → Prop
  | frame (part : Section) {name : String} (maximize integral : Bool)
      (hname : name = d.name ∨ Text.isWord name = true) :
      Move d {} { d with part, name, maximize, integral }
  | objective {kind name : String} (hnone : d.objectiveRow = none)
      (hkind : Content.isFree (kind, name) = true) (hfresh : name ∉ d.rows.map (·.name)) :
      Move d { declarations := [(kind, name)] } { d with objectiveRow := some name }
  | row {kind name : String} {k : RowKind} (hkind : rowKind? kind = some k)
      (hsome : Content.isFree (kind, name) = true → d.objectiveRow.isSome = true)
      (hobj : d.objectiveRow ≠ some name) (hfresh : name ∉ d.rows.map (·.name))
      (hword : Text.isWord name = true) :
      Move d { declarations := [(kind, name)] } (d.addRow name k)
  | column {name : String} (hword : Text.isWord name = true) :
      Move d { columns := [name] } (d.openColumn name).1
  | cost {e : Entry} {j : Nat} {x : Double} (hcolumn : d.column? e.column = some j)
      (hx : Double.parse? e.number = some x) (hobj : d.objectiveRow = some e.row) :
      Move d { entries := [e] } { d with objective := d.objective ++ [(j, x)] }
  | term {e : Entry} {j : Nat} {x : Double} (hcolumn : d.column? e.column = some j)
      (hx : Double.parse? e.number = some x) (hobj : d.objectiveRow ≠ some e.row)
      (hrow : e.row ∈ d.rows.map (·.name)) :
      Move d { entries := [e] }
        (d.withRow e.row fun r => { r with terms := r.terms ++ [(j, x)] })
  | offset {row number : String} {x : Double} (hx : Double.parse? number = some x)
      (hobj : d.objectiveRow = some row) :
      Move d { rhs := [(row, number)] } { d with offset := -x }
  | rhs {row number : String} {x : Double} (hx : Double.parse? number = some x)
      (hobj : d.objectiveRow ≠ some row) (hrow : row ∈ d.rows.map (·.name)) :
      Move d { rhs := [(row, number)] } (d.withRow row fun r => { r with rhs := x })
  | range {row number : String} {x : Double} (hx : Double.parse? number = some x)
      (hrow : row ∈ d.rows.map (·.name)) :
      Move d { ranges := [(row, number)] } (d.withRow row fun r => { r with range := some x })
  | bounds {cs : List Column} (hnames : cs.map (·.name) = d.columns.map (·.name)) :
      Move d {} { d with columns := cs }

inductive Moves : Reading → Content → Reading → Prop
  | nil (d) : Moves d {} d
  | cons {d e f : Reading} {a b : Content} (h : Move d a e) (hs : Moves e b f) : Moves d (a ++ b) f

variable {d e f : Reading} {a b : Content}

theorem Move.moves (h : Move d a e) : Moves d a e := by
  rw [← a.append_nil]
  exact .cons h (.nil e)

theorem Moves.trans (h : Moves d a e) (h' : Moves e b f) : Moves d (a ++ b) f := by
  induction h with
  | nil d => exact h'
  | cons h _ ih =>
      rw [Content.append_assoc]
      exact .cons h (ih h')

theorem Moves.preserves {P : Content → Reading → Prop}
    (hmove : ∀ {c a : Content} {d e : Reading}, P c d → Move d a e → P (c ++ a) e) {c : Content}
    (hd : P c d) (h : Moves d a e) : P (c ++ a) e := by
  induction h generalizing c with
  | nil d =>
      rw [Content.append_nil]
      exact hd
  | cons h _ ih =>
      rw [← Content.append_assoc]
      exact ih (hmove hd h)

section

variable {α β : Type} {g : Reading → α → Except Fault Reading}

/-- Moves for one item after another; `make` turns what the items give into content. -/
theorem moves_foldlM (make : List β → Content) (hnil : make [] = {})
    (hcons : ∀ y ys, make (y :: ys) = make [y] ++ make ys) (give : α → β) {P : Reading → Prop}
    (hmove : ∀ {d e : Reading} {x : α}, P d → g d x = .ok e → Move d (make [give x]) e ∧ P e)
    {xs : List α} (hd : P d) (h : xs.foldlM g d = .ok e) : Moves d (make (xs.map give)) e ∧ P e := by
  induction xs generalizing d with
  | nil =>
      cases h
      rw [List.map_nil, hnil]
      exact ⟨.nil _, hd⟩
  | cons x xs ih =>
      rw [List.foldlM_cons] at h
      obtain ⟨e', hx, h⟩ := Except.bind_eq_ok.mp h
      obtain ⟨hfirst, he'⟩ := hmove hd hx
      obtain ⟨hrest, he⟩ := ih he' h
      rw [List.map_cons, hcons]
      exact ⟨.cons hfirst hrest, he⟩

end

theorem toNumber_eq_ok {word : String} {x : Double} :
    toNumber word = .ok x ↔ Double.parse? word = some x := by
  rw [toNumber]
  cases Double.parse? word with
  | none =>
      constructor
      · intro h
        cases h
      · intro h
        cases h
  | some y =>
      constructor
      · intro h
        rw [Except.ok.inj h]
      · intro h
        rw [Option.some.inj h]

theorem changeRow_eq_ok {name : String} {g : OpenRow → OpenRow} (h : d.changeRow name g = .ok e) :
    name ∈ d.rows.map (·.name) ∧ e = d.withRow name g := by
  rw [changeRow] at h
  split at h
  case isTrue hrow =>
    cases h
    exact ⟨hasRow_iff.mp hrow, rfl⟩
  case isFalse => cases h

theorem isObjective_iff {name : String} :
    d.isObjective name = true ↔ d.objectiveRow = some name := beq_iff_eq

theorem columnEntry_move {column : String} {j : Nat} (hcolumn : d.column? column = some j)
    {p : String × String} (h : columnEntry j d p = .ok e) :
    Move d { entries := [⟨column, p.1, p.2⟩] } e ∧ e.part = d.part ∧ e.column? column = some j := by
  obtain ⟨x, hx, h⟩ := Except.bind_eq_ok.mp h
  have hx := toNumber_eq_ok.mp hx
  split at h
  case isTrue hobj =>
    cases h
    exact ⟨.cost (e := ⟨column, p.1, p.2⟩) hcolumn hx (isObjective_iff.mp hobj), rfl, hcolumn⟩
  case isFalse hobj =>
    obtain ⟨hrow, rfl⟩ := changeRow_eq_ok h
    exact ⟨.term (e := ⟨column, p.1, p.2⟩) hcolumn hx (mt isObjective_iff.mpr hobj) hrow, rfl,
      hcolumn⟩

theorem rhsEntry_move {p : String × String} (h : rhsEntry d p = .ok e) :
    Move d { rhs := [p] } e ∧ e.part = d.part := by
  obtain ⟨x, hx, h⟩ := Except.bind_eq_ok.mp h
  have hx := toNumber_eq_ok.mp hx
  split at h
  case isTrue hobj =>
    cases h
    exact ⟨.offset hx (isObjective_iff.mp hobj), rfl⟩
  case isFalse hobj =>
    obtain ⟨hrow, rfl⟩ := changeRow_eq_ok h
    exact ⟨.rhs hx (mt isObjective_iff.mpr hobj) hrow, rfl⟩

theorem rangeEntry_move {p : String × String} (h : rangeEntry d p = .ok e) :
    Move d { ranges := [p] } e ∧ e.part = d.part := by
  obtain ⟨x, hx, h⟩ := Except.bind_eq_ok.mp h
  obtain ⟨hrow, rfl⟩ := changeRow_eq_ok h
  exact ⟨.range (toNumber_eq_ok.mp hx) hrow, rfl⟩

theorem rowRecord_move {ws : List String} (hwords : ∀ w ∈ ws, Text.isWord w = true)
    (h : d.rowRecord ws = .ok e) : Move d (Record.rowContent ws) e ∧ e.part = d.part := by
  rw [rowRecord.eq_def] at h
  split at h
  case h_2 => cases h
  case h_1 kind name rest =>
    have hword : Text.isWord name = true := hwords name (by simp)
    split at h
    case isTrue => cases h
    case isFalse hnew =>
      rw [Bool.or_eq_true, not_or, isObjective_iff, hasRow_iff] at hnew
      obtain ⟨hobj, hfresh⟩ := hnew
      have hrow {k : RowKind} (hkind : rowKind? kind = some k)
          (hsome : Text.upper kind = "N" → d.objectiveRow.isSome = true) :
          Move d (Record.rowContent (kind :: name :: rest)) (d.addRow name k) :=
        .row hkind (fun hfree => hsome (beq_iff_eq.mp hfree)) hobj hfresh hword
      split at h
      case h_1 hletter =>
        split at h
        case isTrue hnone =>
          cases h
          exact ⟨.objective (Option.isNone_iff_eq_none.mp hnone) (beq_iff_eq.mpr hletter) hfresh, rfl⟩
        case isFalse hsome =>
          cases h
          refine ⟨hrow (by simp [rowKind?, hletter]) fun _ => ?_, rfl⟩
          rwa [← Option.not_isNone, Bool.not_eq_true', Bool.eq_false_iff]
      case h_2 hletter =>
        cases h
        exact ⟨hrow (by simp [rowKind?, hletter]) (by simp [hletter]), rfl⟩
      case h_3 hletter =>
        cases h
        exact ⟨hrow (by simp [rowKind?, hletter]) (by simp [hletter]), rfl⟩
      case h_4 hletter =>
        cases h
        exact ⟨hrow (by simp [rowKind?, hletter]) (by simp [hletter]), rfl⟩
      case h_5 => cases h

theorem marker_move (d : Reading) (word : String) : Move d {} (d.marker word) ∧
    (d.marker word).part = d.part := by
  rw [marker]
  split
  · exact ⟨.frame _ _ _ (.inl rfl), rfl⟩
  · split
    · exact ⟨.frame _ _ _ (.inl rfl), rfl⟩
    · exact ⟨.frame _ _ _ (.inl rfl), rfl⟩

theorem marker_frame (d : Reading) (word : String) :
    (d.marker word).rows = d.rows ∧ (d.marker word).columns = d.columns := by
  rw [marker]
  split
  · exact ⟨rfl, rfl⟩
  · split <;> exact ⟨rfl, rfl⟩

theorem columnRecord_moves {ws : List String} (hwords : ∀ w ∈ ws, Text.isWord w = true)
    (h : d.columnRecord ws = .ok e) : Moves d (Record.columnContent ws) e ∧ e.part = d.part := by
  rw [columnRecord.eq_def] at h
  split at h
  case h_2 => cases h
  case h_1 column second third rest =>
    split at h
    case isTrue hmarker =>
      cases h
      obtain ⟨hmove, hpart⟩ := marker_move d third
      rw [Record.columnContent, List.head?_cons, if_pos (congrArg some hmarker)]
      exact ⟨hmove.moves, hpart⟩
    case isFalse hmarker =>
      split at h
      case isTrue => cases h
      case isFalse =>
        have hopen := Move.column (d := d) (hwords column List.mem_cons_self)
        obtain ⟨hentries, hpart, -⟩ := moves_foldlM (fun es => { entries := es }) rfl
          (fun _ _ => rfl) (fun p : String × String => (⟨column, p.1, p.2⟩ : Entry))
          (P := fun e => e.part = d.part ∧ e.column? column = some (d.openColumn column).2)
          (fun ⟨hp, hc⟩ hx => by
            obtain ⟨hmove, hp', hc'⟩ := columnEntry_move hc hx
            exact ⟨hmove, hp'.trans hp, hc'⟩)
          ⟨part_openColumn d column, column?_openColumn d column⟩ h
        rw [Record.columnContent, List.head?_cons, if_neg (mt Option.some.inj hmarker)]
        exact ⟨.cons hopen hentries, hpart⟩

theorem setEntries_eq_ok {part : Section} {ws : List String} {ps : List (String × String)}
    (h : setEntries part ws = .ok ps) : ps = pairs (Record.afterSet ws) := by
  rw [setEntries, ← Record.afterSet] at h
  split at h
  case h_1 => cases h
  case h_2 => exact (Except.ok.inj h).symm

theorem rhsRecord_moves {ws : List String} (h : d.rhsRecord ws = .ok e) :
    Moves d { rhs := pairs (Record.afterSet ws) } e ∧ e.part = d.part := by
  obtain ⟨ps, hps, h⟩ := Except.bind_eq_ok.mp h
  obtain rfl := setEntries_eq_ok hps
  rw [← List.map_id (pairs (Record.afterSet ws))]
  refine moves_foldlM (fun ps => { rhs := ps }) rfl (fun _ _ => rfl) id
    (P := fun e => e.part = d.part) (fun hp hx => ?_) rfl h
  obtain ⟨hmove, hp'⟩ := rhsEntry_move hx
  exact ⟨hmove, hp'.trans hp⟩

theorem rangeRecord_moves {ws : List String} (h : d.rangeRecord ws = .ok e) :
    Moves d { ranges := pairs (Record.afterSet ws) } e ∧ e.part = d.part := by
  obtain ⟨ps, hps, h⟩ := Except.bind_eq_ok.mp h
  obtain rfl := setEntries_eq_ok hps
  rw [← List.map_id (pairs (Record.afterSet ws))]
  refine moves_foldlM (fun ps => { ranges := ps }) rfl (fun _ _ => rfl) id
    (P := fun e => e.part = d.part) (fun hp hx => ?_) rfl h
  obtain ⟨hmove, hp'⟩ := rangeEntry_move hx
  exact ⟨hmove, hp'.trans hp⟩

theorem setBound_name {kind : String} {x : Double} {c c' : Column} (h : setBound kind x c = .ok c') :
    c'.name = c.name := by
  rw [setBound.eq_def] at h
  split at h <;> cases h <;> rfl

theorem changeColumn_eq_ok {name : String} {f : Column → Except Fault Column}
    (h : d.changeColumn name f = .ok e) : name ∈ d.columns.map (·.name) ∧
      ∃ cs, List.Forall₂ (fun c c' => (if c.name == name then f c else .ok c) = .ok c') d.columns cs ∧
        e = { d with columns := cs } := by
  rw [changeColumn] at h
  split at h
  case isFalse => cases h
  case isTrue hany =>
    obtain ⟨c, hc, hname⟩ := List.any_eq_true.mp hany
    obtain ⟨cs, hcs, h⟩ := Except.bind_eq_ok.mp h
    cases h
    exact ⟨List.mem_map.mpr ⟨c, hc, beq_iff_eq.mp hname⟩, cs, Except.mapM_eq_ok.mp hcs, rfl⟩

theorem names_setBound {kind name : String} {x : Double} {bs cs : List Column}
    (h : List.Forall₂ (fun c c' => (if c.name == name then setBound kind x c else .ok c) = .ok c') bs cs) :
    cs.map (·.name) = bs.map (·.name) := by
  have hnames : List.Forall₂ (fun c c' => c.name = c'.name) bs cs := by
    refine h.imp fun c c' h => ?_
    split at h
    · exact (setBound_name h).symm
    · cases h
      rfl
  rw [← List.forall₂_eq_eq_eq, List.forall₂_map_left_iff, List.forall₂_map_right_iff]
  exact hnames.flip.imp fun _ _ => Eq.symm

theorem boundRecord_move {kind : String} {rest : List String} (h : d.boundRecord kind rest = .ok e) :
    Move d {} e ∧ e.part = d.part := by
  obtain ⟨⟨name, x⟩, -, h⟩ := Except.bind_eq_ok.mp h
  obtain ⟨-, cs, hcs, rfl⟩ := changeColumn_eq_ok h
  exact ⟨.bounds (names_setBound hcs), rfl⟩

theorem record_moves {word : String} {rest : List String}
    (hwords : ∀ w ∈ word :: rest, Text.isWord w = true) (h : d.record word rest = .ok e) :
    Moves d (Record.content ⟨d.part, word :: rest⟩) e ∧ e.part = d.part := by
  rw [record] at h
  rw [Record.content]
  cases hpart : d.part <;> rw [hpart] at h <;> dsimp only at h ⊢
  case start => cases h
  case ended => cases h
  case sense =>
    cases h
    exact ⟨(Move.frame _ _ _ (.inl rfl)).moves, hpart⟩
  case rows =>
    obtain ⟨hmove, hp⟩ := rowRecord_move hwords h
    exact ⟨hmove.moves, hp.trans hpart⟩
  case columns =>
    obtain ⟨hmoves, hp⟩ := columnRecord_moves hwords h
    exact ⟨hmoves, hp.trans hpart⟩
  case rhs =>
    obtain ⟨hmoves, hp⟩ := rhsRecord_moves h
    exact ⟨hmoves, hp.trans hpart⟩
  case ranges =>
    obtain ⟨hmoves, hp⟩ := rangeRecord_moves h
    exact ⟨hmoves, hp.trans hpart⟩
  case bounds =>
    obtain ⟨hmove, hp⟩ := boundRecord_move h
    exact ⟨hmove.moves, hp.trans hpart⟩

theorem header_move {word : String} {rest : List String}
    (hwords : ∀ w ∈ rest, Text.isWord w = true) (h : d.header word rest = .ok e) :
    headerPart? word = some e.part ∧ Move d {} e := by
  have hname : (rest.head?.getD d.name = d.name ∨ Text.isWord (rest.head?.getD d.name) = true) := by
    cases rest with
    | nil => exact .inl rfl
    | cons w ws => exact .inr (hwords w List.mem_cons_self)
  rw [header.eq_def] at h
  rw [headerPart?]
  split at h
  case h_1 hword =>
    cases h
    exact ⟨by rw [hword]; rfl, .frame _ _ _ hname⟩
  case h_2 hword =>
    cases h
    rw [hword]
    cases rest with
    | nil => exact ⟨rfl, .frame _ _ _ (.inl rfl)⟩
    | cons w ws => exact ⟨rfl, .frame _ _ _ (.inl rfl)⟩
  case h_9 => cases h
  all_goals
    rename_i hword
    cases h
    exact ⟨by rw [hword]; rfl, .frame _ _ _ (.inl rfl)⟩

theorem header_frame {word : String} {rest : List String} (h : d.header word rest = .ok e) :
    e.rows = d.rows ∧ e.columns = d.columns := by
  rw [header.eq_def] at h
  split at h
  case h_2 =>
    cases h
    cases rest <;> exact ⟨rfl, rfl⟩
  case h_9 => cases h
  all_goals
    cases h
    exact ⟨rfl, rfl⟩

theorem part_of_record {word : String} {rest : List String} (h : d.record word rest = .ok e) :
    d.part ≠ .ended := by
  intro hpart
  rw [record, hpart] at h
  cases h

theorem records_header (part : Section) {word : String} (rest : List String) {next : Section}
    (hnext : headerPart? word = some next) (ls : List Line) :
    records part (⟨false, word :: rest⟩ :: ls) =
      if next = .ended then [] else records next ls := by
  rw [records, if_neg Bool.false_ne_true, List.head?_cons, Option.bind_some, hnext]
  cases next <;> rfl

/-- A line says something, and in words. -/
def Worded (l : Line) : Prop := l.words ≠ [] ∧ ∀ w ∈ l.words, Text.isWord w = true

theorem worded_of_ofChars? {cs : List Char} {l : Line} (h : Line.ofChars? cs = some l) : Worded l := by
  have hword : ∀ w ∈ Text.words cs, Text.isWord w = true := fun w => Text.isWord_of_mem_words
  rw [Line.ofChars?] at h
  split at h
  case h_1 => cases h
  case h_2 ws hne =>
    split at h
    case isTrue => cases h
    case isFalse =>
      cases h
      exact ⟨hne, hword⟩

theorem worded_numbered {css : List (List Char)} {n : Nat} :
    ∀ l ∈ (css.zipIdx n).filterMap fun c => (Line.ofChars? c.1).map (c.2, ·), Worded l.2 := by
  intro l hl
  obtain ⟨c, -, hc⟩ := List.mem_filterMap.mp hl
  obtain ⟨l', hl', rfl⟩ := Option.map_eq_some_iff.mp hc
  exact worded_of_ofChars? hl'

/-- What every record and every header keeps holds in the end, of the records up to there. -/
theorem lines_preserves {P : List Record → Reading → Prop}
    (hrecord : ∀ {rs : List Record} {d e : Reading} {word : String} {rest : List String},
      (∀ w ∈ word :: rest, Text.isWord w = true) → P rs d → d.record word rest = .ok e →
        P (rs ++ [⟨d.part, word :: rest⟩]) e)
    (hheader : ∀ {rs : List Record} {d e : Reading} {word : String} {rest : List String},
      (∀ w ∈ rest, Text.isWord w = true) → P rs d → d.header word rest = .ok e → P rs e)
    {ls : List (Nat × Line)} (hworded : ∀ l ∈ ls, Worded l.2) (rs : List Record) (hd : P rs d)
    (h : d.lines ls = .ok e) : P (rs ++ records d.part (ls.map (·.2))) e := by
  induction ls generalizing d rs with
  | nil =>
      cases h
      rw [List.map_nil, records, List.append_nil]
      exact hd
  | cons l ls ih =>
      obtain ⟨n, indented, ws⟩ := l
      obtain ⟨⟨hne, hwords⟩, hlater⟩ := List.forall_mem_cons.mp hworded
      cases ws with
      | nil => exact absurd rfl hne
      | cons word rest =>
          rw [lines] at h
          cases hline : d.line ⟨indented, word :: rest⟩ with
          | error fault =>
              rw [hline] at h
              cases h
          | ok d' =>
              rw [hline] at h
              cases indented with
              | true =>
                  obtain ⟨-, hpart⟩ := record_moves hwords hline
                  have hgo : ¬ d'.part = .ended := hpart ▸ part_of_record hline
                  have hrest := ih hlater _ (hrecord hwords hd hline) ((if_neg hgo).symm.trans h)
                  rw [hpart, List.append_assoc] at hrest
                  exact hrest
              | false =>
                  have hrest := fun w hw => hwords w (List.mem_cons_of_mem word hw)
                  obtain ⟨hnext, -⟩ := header_move hrest hline
                  have hd' := hheader hrest hd hline
                  rw [List.map_cons, records_header d.part rest hnext]
                  by_cases hend : d'.part = .ended
                  · cases (if_pos hend).symm.trans h
                    rw [if_pos hend, List.append_nil]
                    exact hd'
                  · rw [if_neg hend]
                    exact ih hlater rs hd' ((if_neg hend).symm.trans h)

theorem lines_moves {ls : List (Nat × Line)} (hworded : ∀ l ∈ ls, Worded l.2)
    (h : d.lines ls = .ok e) : Moves d (contentOf (records d.part (ls.map (·.2)))) e := by
  refine lines_preserves (P := fun rs e => Moves d (contentOf rs) e) ?record ?header hworded []
    (.nil d) h
  case record =>
    intro rs d' e word rest hwords hmoves h
    rw [contentOf_concat]
    exact hmoves.trans (record_moves hwords h).1
  case header =>
    intro rs d' e word rest hwords hmoves h
    rw [← Content.append_nil (contentOf rs)]
    exact hmoves.trans (header_move hwords h).2.moves

theorem exists_lines_of_append {ls more : List (Nat × Line)} (h : d.lines (ls ++ more) = .ok e) :
    ∃ d', d.lines ls = .ok d' := by
  induction ls generalizing d with
  | nil => exact ⟨d, rfl⟩
  | cons l ls ih =>
      rw [List.cons_append, lines] at h
      rw [lines]
      cases hline : d.line l.2 with
      | error fault =>
          rw [hline] at h
          cases h
      | ok d' =>
          rw [hline] at h
          dsimp only at h ⊢
          split
          case isTrue => exact ⟨d', rfl⟩
          case isFalse hgo => exact ih ((if_neg hgo).symm.trans h)

end LinOpt.Mps.Reading
