import LinOpt.Proofs.Lists
import LinOpt.Proofs.Mps.Moves
import LinOpt.Proofs.Mps.Tables

namespace LinOpt.Mps

/-- Exactly the names of the list are in the table, each with its only position. -/
def Indexes (table : String → Option Nat) (names : List String) : Prop :=
  ∀ name i, table name = some i ↔ names[i]? = some name

namespace Indexes

variable {table : String → Option Nat} {names : List String} {name : String}

theorem eq_none_iff (h : Indexes table names) : table name = none ↔ name ∉ names := by
  rw [Option.eq_none_iff_forall_ne_some, List.mem_iff_getElem?, not_exists]
  exact forall_congr' fun i => not_congr (h name i)

theorem isSome_iff (h : Indexes table names) : (table name).isSome = true ↔ name ∈ names := by
  rw [← not_iff_not, ← h.eq_none_iff, Option.not_isSome_iff_eq_none]

theorem update (h : Indexes table names) (hfresh : name ∉ names) :
    Indexes (Function.update table name (some names.length)) (names ++ [name]) := by
  intro other i
  by_cases hother : other = name
  · subst hother
    rw [Function.update_self, Option.some_inj, List.getElem?_append]
    split
    case isTrue hlt =>
      refine iff_of_false (Nat.ne_of_gt hlt) fun hi => hfresh ?_
      exact List.mem_of_getElem? hi
    case isFalse hge =>
      rw [List.getElem?_singleton]
      split
      case isTrue hzero => exact iff_of_true (by omega) rfl
      case isFalse hpos => exact iff_of_false (by omega) nofun
  · rw [Function.update_of_ne hother, h other i, List.getElem?_append]
    split
    case isTrue => rfl
    case isFalse hge =>
      rw [List.getElem?_eq_none (Nat.le_of_not_lt hge), List.getElem?_singleton]
      refine iff_of_false nofun ?_
      split
      · exact fun heq => hother (Option.some.inj heq).symm
      · exact nofun

section

variable {α : Type} {key : α → String} {xs : List α} {i : Nat}

theorem lt_length (h : Indexes table (xs.map key)) (hi : table name = some i) : i < xs.length := by
  obtain ⟨hlt, -⟩ := List.getElem?_eq_some_iff.mp ((h name i).mp hi)
  rwa [List.length_map] at hlt

theorem key_eq_iff (h : Indexes table (xs.map key)) (hi : table name = some i) {j : Nat}
    (hj : j < xs.length) : key xs[j] = name ↔ j = i := by
  have hiff := h name j
  rw [List.getElem?_map, List.getElem?_eq_getElem hj, Option.map_some, Option.some_inj, hi,
    Option.some_inj] at hiff
  rw [← hiff]
  exact eq_comm

theorem findIdx?_eq (h : Indexes table (xs.map key)) (name : String) :
    xs.findIdx? (key · == name) = table name := by
  cases hi : table name with
  | none =>
      rw [h.eq_none_iff] at hi
      refine List.findIdx?_eq_none_iff.mpr fun x hx => beq_eq_false_iff_ne.mpr ?_
      rintro rfl
      exact hi (List.mem_map_of_mem hx)
  | some i =>
      have hlt := h.lt_length hi
      refine List.findIdx?_eq_some_iff_getElem.mpr ⟨hlt, ?_, fun j hj => ?_⟩
      · exact beq_iff_eq.mpr ((h.key_eq_iff hi hlt).mpr rfl)
      · rw [beq_iff_eq, h.key_eq_iff hi]
        exact Nat.ne_of_lt hj

theorem set_eq_map (h : Indexes table (xs.map key)) (hi : table name = some i)
    (hlt : i < xs.length) (f : α → α) :
    xs.set i (f xs[i]) = xs.map fun x => if key x == name then f x else x := by
  apply List.ext_getElem (by simp)
  intro j hj hj'
  rw [List.length_set] at hj
  rw [List.getElem_set, List.getElem_map]
  by_cases hij : i = j
  · subst hij
    rw [if_pos rfl, if_pos (beq_iff_eq.mpr ((h.key_eq_iff hi hj).mpr rfl))]
  · rw [if_neg hij, if_neg (mt beq_iff_eq.mp (mt (h.key_eq_iff hi hj).mp (Ne.symm hij)))]

end

end Indexes

theorem chunks_eq : ∀ {ws : List String}, ws.length % 2 = 0 →
    chunks ws = (pairs ws).map fun p => [p.1, p.2]
  | [], _ => rfl
  | [_], h => absurd h Nat.one_ne_zero
  | a :: b :: rest, h => by
      rw [chunks, pairs, List.map_cons, chunks_eq (by rwa [List.length_cons, List.length_cons,
        Nat.add_assoc, Nat.add_mod_right] at h)]

theorem pairs_eq_nil_iff {ws : List String} (h : ws.length % 2 = 0) : pairs ws = [] ↔ ws = [] := by
  rcases ws with _ | ⟨a, _ | ⟨b, rest⟩⟩
  · exact iff_of_true rfl rfl
  · exact absurd h Nat.one_ne_zero
  · exact iff_of_false (List.cons_ne_nil _ _) (List.cons_ne_nil _ _)

structure Exact (t : Tables) (d : Reading) : Prop where
  reading : t.reading = d
  rows : Indexes t.rowAt (d.rows.map (·.name))
  columns : Indexes t.columnAt (d.columns.map (·.name))

namespace Tables

variable {t : Tables} {d : Reading} {name : String}

theorem exact_frame {d' : Reading} (h : Exact t d) (hrows : d'.rows = t.reading.rows)
    (hcolumns : d'.columns = t.reading.columns) : Exact { t with reading := d' } d' := by
  rw [h.reading] at hrows hcolumns
  exact ⟨rfl, hrows.symm ▸ h.rows, hcolumns.symm ▸ h.columns⟩

theorem exact_pushRow (h : Exact t d) (hfresh : name ∉ d.rows.map (·.name)) (kind : RowKind) :
    Exact (t.pushRow name kind) (d.addRow name kind) := by
  obtain ⟨rfl, hrows, hcolumns⟩ := h
  have hnew := hrows.update hfresh
  rw [List.length_map] at hnew
  have hnames : (t.reading.addRow name kind).rows.map (·.name) =
      t.reading.rows.map (·.name) ++ [name] := List.map_append
  exact ⟨rfl, hnames.symm ▸ hnew, hcolumns⟩

theorem isSome_rowAt (h : Exact t d) (name : String) : (t.rowAt name).isSome = d.hasRow name := by
  rw [Bool.eq_iff_iff, h.rows.isSome_iff, Reading.hasRow_iff]

theorem rowRecord_agree (h : Exact t d) (ws : List String) :
    Agree Exact (t.rowRecord ws) (d.rowRecord ws) := by
  rcases ws with _ | ⟨kind, _ | ⟨name, rest⟩⟩
  · exact .error _
  · exact .error _
  · rw [rowRecord.eq_def, Reading.rowRecord.eq_def]
    dsimp only
    rw [h.reading, isSome_rowAt h]
    split
    case isTrue => exact .error _
    case isFalse hnew =>
      rw [Bool.or_eq_true, not_or, Reading.hasRow_iff] at hnew
      generalize Text.upper kind = letter
      split
      case h_1 =>
        split
        case isTrue => exact .ok ⟨rfl, h.rows, h.columns⟩
        case isFalse => exact .ok (exact_pushRow h hnew.2 .free)
      case h_2 => exact .ok (exact_pushRow h hnew.2 .less)
      case h_3 => exact .ok (exact_pushRow h hnew.2 .greater)
      case h_4 => exact .ok (exact_pushRow h hnew.2 .equal)
      case h_5 =>
        try split
        all_goals first | contradiction | exact .error _

theorem changeRow_agree (h : Exact t d) (name : String) {f : OpenRow → OpenRow}
    (hf : ∀ r, (f r).name = r.name) : Agree Exact (t.changeRow name f) (d.changeRow name f) := by
  have hiff := isSome_rowAt h name
  rw [changeRow, row, Reading.changeRow, ← hiff]
  cases hi : t.rowAt name with
  | none => exact .error _
  | some i =>
      have hrows := h.rows
      have hlt := hrows.lt_length hi
      obtain ⟨rfl, -, hcolumns⟩ := h
      have hnames := names_map (g := fun r => if r.name == name then f r else r)
        (fun r => by split <;> simp [hf]) t.reading.rows
      show Agree Exact (access (modifyAt f i t.reading.rows) >>= _) (.ok _)
      rw [modifyAt_eq hlt, hrows.set_eq_map hi hlt]
      exact .ok ⟨rfl, hnames.symm ▸ hrows, hcolumns⟩

theorem columnAt_eq (h : Exact t d) (name : String) : t.columnAt name = d.column? name :=
  (h.columns.findIdx?_eq name).symm

theorem exact_openColumn (h : Exact t d) (name : String) :
    Exact (t.openColumn name).1 (d.openColumn name).1 ∧
      (t.openColumn name).2 = (d.openColumn name).2 := by
  rw [openColumn, Reading.openColumn, ← columnAt_eq h]
  cases hi : t.columnAt name with
  | some i => exact ⟨h, rfl⟩
  | none =>
      have hnew := h.columns.update (h.columns.eq_none_iff.mp hi)
      obtain ⟨rfl, hrows, hcolumns⟩ := h
      rw [List.length_map] at hnew
      refine ⟨⟨rfl, hrows, ?_⟩, rfl⟩
      rw [List.map_append]
      exact hnew

theorem columnEntry_agree (h : Exact t d) (j : Nat) (p : String × String) :
    Agree Exact (columnEntry j t [p.1, p.2]) (Reading.columnEntry j d p) := by
  refine (Agree.lift (toNumber p.2)).bind fun x y hxy => ?_
  subst hxy
  show Agree Exact (if t.reading.isObjective p.1 then _ else _) _
  rw [h.reading]
  split
  case isTrue =>
    obtain ⟨rfl, hrows, hcolumns⟩ := h
    exact .ok ⟨rfl, hrows, hcolumns⟩
  case isFalse => exact changeRow_agree h p.1 fun _ => rfl

theorem columnRecord_agree (h : Exact t d) (ws : List String) :
    Agree Exact (t.columnRecord ws) (d.columnRecord ws) := by
  rcases ws with _ | ⟨name, _ | ⟨second, _ | ⟨third, rest⟩⟩⟩
  · exact .error _
  · exact .error _
  · exact .error _
  · have hlength : ¬ (name :: second :: third :: rest).length < 3 := by simp
    have hmarker : isMarker (name :: second :: third :: rest) = some (second == "'MARKER'") := by
      rw [isMarker, if_pos (Nat.le_of_not_lt hlength)]
      rfl
    rw [columnRecord, hmarker, access_some, pure_bind, Reading.columnRecord]
    by_cases hsecond : second = "'MARKER'"
    · rw [if_pos (beq_iff_eq.mpr hsecond), if_pos hsecond]
      have hframe := Reading.marker_frame t.reading third
      rw [← h.reading]
      exact .ok (exact_frame h hframe.1 hframe.2)
    · rw [if_neg (mt beq_iff_eq.mp hsecond), if_neg hsecond]
      by_cases heven : (name :: second :: third :: rest).length % 2 = 0
      · rw [if_pos heven, if_pos (.inr heven)]
        exact .error _
      · have htail : (second :: third :: rest).length % 2 = 0 := by
          rw [List.length_cons] at heven
          omega
        rw [if_neg heven, if_neg (not_or.mpr ⟨hlength, heven⟩)]
        obtain ⟨hopen, hnumber⟩ := exact_openColumn h name
        show Agree Exact ((chunks (second :: third :: rest)).foldlM
          (columnEntry (t.openColumn name).2) (t.openColumn name).1) _
        rw [chunks_eq htail, hnumber]
        exact Agree.foldlM _ (fun p _ t d h => columnEntry_agree h _ p) hopen

theorem setFields_agree (part : Section) (ws : List String) :
    Agree (fun fields ps => chunks fields = ps.map fun p => [p.1, p.2]) (setFields part ws)
      (Reading.setEntries part ws) := by
  have hfields : (if ws.length % 2 = 1 then wordsFrom 1 ws else some ws) =
      some (if ws.length % 2 = 1 then ws.tail else ws) := by
    split
    case isTrue hodd => rw [wordsFrom, if_pos (by omega), List.drop_one]
    case isFalse => rfl
  have heven : (if ws.length % 2 = 1 then ws.tail else ws).length % 2 = 0 := by
    split
    · rw [List.length_tail]
      omega
    · omega
  rw [setFields, hfields, access_some, pure_bind, Reading.setEntries]
  generalize (if ws.length % 2 = 1 then ws.tail else ws) = fields at heven
  by_cases hempty : fields = []
  · rw [if_pos (List.isEmpty_iff.mpr hempty), hempty]
    exact .error _
  · rw [if_neg (mt List.isEmpty_iff.mp hempty)]
    split
    case h_1 hnil => exact absurd ((pairs_eq_nil_iff heven).mp hnil) hempty
    case h_2 => exact .ok (chunks_eq heven)

theorem rhsEntry_agree (h : Exact t d) (p : String × String) :
    Agree Exact (rhsEntry t [p.1, p.2]) (Reading.rhsEntry d p) := by
  refine (Agree.lift (toNumber p.2)).bind fun x y hxy => ?_
  subst hxy
  show Agree Exact (if t.reading.isObjective p.1 then _ else _) _
  rw [h.reading]
  split
  case isTrue =>
    obtain ⟨rfl, hrows, hcolumns⟩ := h
    exact .ok ⟨rfl, hrows, hcolumns⟩
  case isFalse => exact changeRow_agree h p.1 fun _ => rfl

theorem rangeEntry_agree (h : Exact t d) (p : String × String) :
    Agree Exact (rangeEntry t [p.1, p.2]) (Reading.rangeEntry d p) := by
  refine (Agree.lift (toNumber p.2)).bind fun x y hxy => ?_
  subst hxy
  exact changeRow_agree h p.1 fun _ => rfl

theorem rhsRecord_agree (h : Exact t d) (ws : List String) :
    Agree Exact (t.rhsRecord ws) (d.rhsRecord ws) := by
  refine (setFields_agree .rhs ws).bind fun fields ps hps => ?_
  rw [hps]
  exact Agree.foldlM _ (fun p _ t d h => rhsEntry_agree h p) h

theorem rangeRecord_agree (h : Exact t d) (ws : List String) :
    Agree Exact (t.rangeRecord ws) (d.rangeRecord ws) := by
  refine (setFields_agree .ranges ws).bind fun fields ps hps => ?_
  rw [hps]
  exact Agree.foldlM _ (fun p _ t d h => rangeEntry_agree h p) h

theorem boundTarget_agree (h : Exact t d) (kind word : String) (rest : List String) :
    Agree Eq (t.boundTarget kind (word :: rest)) (d.boundTarget kind rest) := by
  rw [boundTarget.eq_def, Reading.boundTarget.eq_def]
  split
  case isTrue =>
    rcases hrest : rest.reverse with _ | ⟨value, _ | ⟨column, front⟩⟩
    · rw [List.reverse_eq_nil_iff] at hrest
      rw [hrest]
      exact .error _
    · rw [List.reverse_eq_iff] at hrest
      rw [hrest]
      exact .error _
    · have hfields : rest = front.reverse ++ [column, value] := by
        rw [List.reverse_eq_iff.mp hrest]
        simp
      have hlength : (word :: rest).length = front.length + 3 := by simp [hfields]
      have hcolumn : (word :: rest)[front.length + 1]? = some column := by simp [hfields]
      have hvalue : (word :: rest)[front.length + 2]? = some value := by simp [hfields]
      rw [if_neg (by omega), hlength]
      show Agree Eq (access (word :: rest)[front.length + 1]? >>= fun name =>
        access (word :: rest)[front.length + 2]? >>= fun value =>
          (liftM (toNumber value) : Checked Fault Double) >>= fun x => pure (name, x))
        ((toNumber value).map (column, ·))
      rw [hcolumn, hvalue, access_some, pure_bind, access_some, pure_bind]
      cases toNumber value with
      | error e => exact .error e
      | ok x => exact .ok rfl
  case isFalse =>
    rcases rest with _ | ⟨first, _ | ⟨second, rest⟩⟩
    · exact .error _
    · exact .ok rfl
    · refine .ok ?_
      rw [columnAt_eq h]

theorem changeColumn_agree (h : Exact t d) (name : String) {f : Column → Except Fault Column}
    (hf : ∀ c c', f c = .ok c' → c'.name = c.name) :
    Agree Exact (t.changeColumn name f) (d.changeColumn name f) := by
  have hknown : d.columns.any (·.name == name) = (t.columnAt name).isSome := by
    rw [Bool.eq_iff_iff, h.columns.isSome_iff]
    simp
  rw [changeColumn, column, Reading.changeColumn, hknown]
  cases hi : t.columnAt name with
  | none => exact .error _
  | some i =>
      have hcolumns := h.columns
      have hlt := hcolumns.lt_length hi
      obtain ⟨rfl, hrows, -⟩ := h
      have hset := Except.mapM_ite (p := (·.name == name)) (f := f) hlt fun j hj => by
        rw [beq_iff_eq, hcolumns.key_eq_iff hi hj]
      show Agree Exact (access t.reading.columns[i]? >>= fun c => liftM (f c) >>= _) _
      rw [List.getElem?_eq_getElem hlt, hset, access_some, pure_bind]
      cases hc : f t.reading.columns[i] with
      | error e => exact .error e
      | ok c =>
          have hnames := map_set_of_eq (f := (·.name)) hlt (hf _ _ hc)
          exact .ok ⟨rfl, hrows, hnames.symm ▸ hcolumns⟩

theorem boundRecord_agree (h : Exact t d) (word : String) (rest : List String) :
    Agree Exact (t.boundRecord (word :: rest)) (d.boundRecord (Text.upper word) rest) := by
  refine (boundTarget_agree h (Text.upper word) word rest).bind fun target target' heq => ?_
  subst heq
  exact changeColumn_agree h target.1 fun _ _ => Reading.setBound_name

theorem record_agree (h : Exact t d) (word : String) (rest : List String) :
    Agree Exact (t.record (word :: rest)) (d.record word rest) := by
  rw [record, Reading.record, h.reading]
  cases d.part with
  | rows => exact rowRecord_agree h _
  | columns => exact columnRecord_agree h _
  | rhs => exact rhsRecord_agree h _
  | ranges => exact rangeRecord_agree h _
  | bounds => exact boundRecord_agree h word rest
  | sense =>
      rw [← h.reading]
      exact .ok (exact_frame h rfl rfl)
  | start => exact .error _
  | ended => exact .error _

theorem header_agree (h : Exact t d) (word : String) (rest : List String) :
    Agree Exact (t.header (word :: rest)) (d.header word rest) := by
  rw [← h.reading]
  show Agree Exact ((liftM (t.reading.header word rest) : Checked Fault Reading) >>= _) _
  cases hheader : t.reading.header word rest with
  | error e => exact .error e
  | ok d' =>
      obtain ⟨hrows, hcolumns⟩ := Reading.header_frame hheader
      exact .ok (exact_frame h hrows hcolumns)

theorem line_agree (h : Exact t d) {l : Line} (hwords : l.words ≠ []) :
    Agree Exact (t.line l) (d.line l) := by
  obtain ⟨indented, ws⟩ := l
  cases ws with
  | nil => exact absurd rfl hwords
  | cons word rest =>
      cases indented with
      | true => exact record_agree h word rest
      | false => exact header_agree h word rest

theorem lines_agree (h : Exact t d) {ls : List (Nat × Line)} (hwords : ∀ l ∈ ls, l.2.words ≠ []) :
    Agree Exact (t.lines ls) (d.lines ls) := by
  induction ls generalizing t d with
  | nil => exact .ok h
  | cons l ls ih =>
      obtain ⟨n, l⟩ := l
      obtain ⟨hl, hls⟩ := List.forall_mem_cons.mp hwords
      have hagree := line_agree h hl
      rw [lines, Reading.lines]
      generalize t.line l = x at hagree ⊢
      generalize d.line l = y at hagree ⊢
      cases hagree with
      | error e => exact .error _
      | @ok t' d' h' =>
          obtain rfl := h'.reading
          show Agree Exact (if _ then _ else _) (if _ then _ else _)
          split
          case isTrue => exact .ok h'
          case isFalse => exact ih h' hls

end Tables

end LinOpt.Mps
