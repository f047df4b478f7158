import LinOpt.Proofs.Mps.BoundHistory
import LinOpt.Proofs.Mps.Given

namespace LinOpt.Mps

/-- The bound that a record of the bounds part gives. A kind without a value goes by the columns that
are known there, to tell a column from the name of a set. -/
def boundOf? (known : List String) (kind : String) (rest : List String) : Option Bound :=
  if Reading.hasValue kind then
    match rest.reverse with
    | number :: column :: _ => (Double.parse? number).map fun x => ⟨kind, column, x⟩
    | _ => none
  else
    match rest with
    | first :: second :: _ => some ⟨kind, if known.contains second then second else first, .zero⟩
    | [first] => some ⟨kind, first, .zero⟩
    | [] => none

def Record.bound? (known : List String) (r : Record) : Option Bound :=
  match r.part, r.words with
  | .bounds, word :: rest => boundOf? known (Text.upper word) rest
  | _, _ => none

def boundsFrom (known : List String) : List Record → List Bound
  | [] => []
  | r :: rs => (r.bound? known).toList ++ boundsFrom (known ++ r.content.columns) rs

theorem boundsFrom_concat (known : List String) (rs : List Record) (r : Record) :
    boundsFrom known (rs ++ [r]) =
      boundsFrom known rs ++ (r.bound? (known ++ (contentOf rs).columns)).toList := by
  induction rs generalizing known with
  | nil => simp [boundsFrom, contentOf]
  | cons s rs ih =>
      have hcolumns : (contentOf (s :: rs)).columns = s.content.columns ++ (contentOf rs).columns := rfl
      rw [List.cons_append, boundsFrom, ih, boundsFrom, List.append_assoc, hcolumns, List.append_assoc]

/-- The bounds that are given for a column. -/
def boundsOf (rs : List Record) (name : String) : List Bound :=
  (boundsFrom [] rs).filter (·.column == name)

theorem boundsOf_concat (rs : List Record) (r : Record) (name : String) :
    boundsOf (rs ++ [r]) name = boundsOf rs name ++
      (r.bound? (contentOf rs).columns).toList.filter (·.column == name) := by
  rw [boundsOf, boundsFrom_concat, List.filter_append, List.nil_append]
  rfl

theorem boundsOf_concat_self {rs : List Record} {r : Record} {b : Bound}
    (h : r.bound? (contentOf rs).columns = some b) :
    boundsOf (rs ++ [r]) b.column = boundsOf rs b.column ++ [b] := by
  rw [boundsOf_concat, h]
  simp

theorem boundsOf_concat_of_ne {rs : List Record} {r : Record} {name : String}
    (h : ∀ b ∈ r.bound? (contentOf rs).columns, b.column ≠ name) :
    boundsOf (rs ++ [r]) name = boundsOf rs name := by
  rw [boundsOf_concat, List.filter_eq_nil_iff.mpr, List.append_nil]
  intro b hb heq
  exact h b (Option.mem_toList.mp hb) (eq_of_beq heq)

theorem columns_contentOf_concat (rs : List Record) (r : Record) :
    (contentOf (rs ++ [r])).columns = (contentOf rs).columns ++ r.content.columns := by
  rw [contentOf_concat]
  rfl

theorem follows_nil (name : String) (kind : VariableKind) :
    Follows [] ⟨name, .zero, .infinity, kind⟩ where
  lower := by simp [lowerOf, givenLower, lastGiven, afterLower]
  upper := rfl

theorem columns_rowContent (ws : List String) : (Record.rowContent ws).columns = [] := by
  rw [Record.rowContent.eq_def]
  split <;> rfl

namespace Reading

variable {d e : Reading} {rs : List Record} {r : Record} {word name : String} {rest : List String}

theorem Move.columns_eq {a : Content} (h : Move d a e) (hcolumns : a.columns = []) (hsome : a ≠ {}) :
    e.columns = d.columns := by
  cases h with
  | column => cases hcolumns
  | bounds => exact absurd rfl hsome
  | _ => rfl

theorem columns_foldlM {α : Type} {g : Reading → α → Except Fault Reading}
    (hg : ∀ {d e : Reading} {x : α}, g d x = .ok e → e.columns = d.columns) {xs : List α}
    (h : xs.foldlM g d = .ok e) : e.columns = d.columns := by
  induction xs generalizing d with
  | nil =>
      cases h
      rfl
  | cons x xs ih =>
      rw [List.foldlM_cons] at h
      obtain ⟨e', hx, h⟩ := Except.bind_eq_ok.mp h
      exact (ih h).trans (hg hx)

theorem columns_columnEntry {j : Nat} {p : String × String} (h : columnEntry j d p = .ok e) :
    e.columns = d.columns := by
  obtain ⟨x, -, h⟩ := Except.bind_eq_ok.mp h
  split at h
  case isTrue =>
    cases h
    rfl
  case isFalse =>
    obtain ⟨-, rfl⟩ := changeRow_eq_ok h
    rfl

theorem columns_rowRecord {ws : List String} (hwords : ∀ w ∈ ws, Text.isWord w = true)
    (h : d.rowRecord ws = .ok e) : e.columns = d.columns := by
  rcases ws with _ | ⟨kind, _ | ⟨name, rest⟩⟩
  · cases h
  · cases h
  · exact (rowRecord_move hwords h).1.columns_eq rfl (by simp [Record.rowContent])

theorem columns_rhsRecord {ws : List String} (h : d.rhsRecord ws = .ok e) : e.columns = d.columns := by
  obtain ⟨ps, -, h⟩ := Except.bind_eq_ok.mp h
  exact columns_foldlM (fun hx => (rhsEntry_move hx).1.columns_eq rfl (by simp)) h

theorem columns_rangeRecord {ws : List String} (h : d.rangeRecord ws = .ok e) :
    e.columns = d.columns := by
  obtain ⟨ps, -, h⟩ := Except.bind_eq_ok.mp h
  exact columns_foldlM (fun hx => (rangeEntry_move hx).1.columns_eq rfl (by simp)) h

theorem columns_columnRecord {ws : List String} (h : d.columnRecord ws = .ok e) :
    (Record.columnContent ws).columns = [] ∧ e.columns = d.columns ∨
      ∃ name, (Record.columnContent ws).columns = [name] ∧
        e.columns = (d.openColumn name).1.columns := by
  rw [columnRecord.eq_def] at h
  split at h
  case h_2 => cases h
  case h_1 column second third rest =>
    split at h
    case isTrue hmarker =>
      cases h
      rw [Record.columnContent, List.head?_cons, if_pos (congrArg some hmarker)]
      exact .inl ⟨rfl, (marker_frame d third).2⟩
    case isFalse hmarker =>
      split at h
      case isTrue => cases h
      case isFalse =>
        rw [Record.columnContent, List.head?_cons, if_neg (mt Option.some.inj hmarker)]
        exact .inr ⟨column, rfl, columns_foldlM columns_columnEntry h⟩

structure Bounded (rs : List Record) (d : Reading) : Prop where
  names : ∀ name, name ∈ d.columns.map (·.name) ↔ name ∈ (contentOf rs).columns
  placed : ∀ b ∈ boundsFrom [] rs, b.column ∈ d.columns.map (·.name)
  columns : ∀ c ∈ d.columns, Follows (boundsOf rs c.name) c

namespace Bounded

theorem frame (hd : Bounded rs d) (hcolumns : e.columns = d.columns) : Bounded rs e where
  names := hcolumns ▸ hd.names
  placed := hcolumns ▸ hd.placed
  columns := hcolumns ▸ hd.columns

theorem boundsOf_eq_nil (hd : Bounded rs d) (hname : name ∉ d.columns.map (·.name)) :
    boundsOf rs name = [] := by
  refine List.filter_eq_nil_iff.mpr fun b hb heq => hname ?_
  rw [← eq_of_beq heq]
  exact hd.placed b hb

theorem unbounded (hd : Bounded rs d) (hnone : r.bound? (contentOf rs).columns = none)
    (hnames : ∀ name, name ∈ e.columns.map (·.name) ↔
      name ∈ d.columns.map (·.name) ∨ name ∈ r.content.columns)
    (hcolumns : ∀ c ∈ e.columns, c ∈ d.columns ∨
      c.name ∉ d.columns.map (·.name) ∧ Follows [] c) : Bounded (rs ++ [r]) e where
  names name := by
    rw [hnames, hd.names, columns_contentOf_concat, List.mem_append]
  placed := by
    rw [boundsFrom_concat, List.nil_append, hnone]
    intro b hb
    exact (hnames _).mpr (.inl (hd.placed b (by simpa using hb)))
  columns c hc := by
    rw [boundsOf_concat_of_ne (by simp [hnone])]
    rcases hcolumns c hc with hold | ⟨hfresh, hnew⟩
    · exact hd.columns c hold
    · rw [hd.boundsOf_eq_nil hfresh]
      exact hnew

theorem silent (hd : Bounded rs d) (hcolumns : e.columns = d.columns) (hnames : r.content.columns = [])
    (hnone : r.bound? (contentOf rs).columns = none) : Bounded (rs ++ [r]) e := by
  refine hd.unbounded hnone (fun name => ?_) fun c hc => ?_
  · rw [hcolumns, hnames]
    simp
  · exact .inl (hcolumns ▸ hc)

theorem openColumn (hd : Bounded rs d) (hnames : r.content.columns = [name])
    (hnone : r.bound? (contentOf rs).columns = none)
    (he : e.columns = (d.openColumn name).1.columns) : Bounded (rs ++ [r]) e := by
  rcases openColumn_columns d name with ⟨hmem, hsame⟩ | ⟨hfresh, -⟩
  · rw [hsame] at he
    refine hd.unbounded hnone (fun other => ?_) fun c hc => .inl (he ▸ hc)
    rw [he, hnames, List.mem_singleton]
    exact ⟨.inl, fun h => h.elim id (· ▸ hmem)⟩
  · rw [openColumn_of_fresh hfresh] at he
    refine hd.unbounded hnone (fun other => ?_) fun c hc => ?_
    · rw [he, hnames, List.map_append, List.mem_append]
      rfl
    · rw [he, List.mem_append, List.mem_singleton] at hc
      rcases hc with hc | rfl
      · exact .inl hc
      · exact .inr ⟨hfresh, follows_nil _ _⟩

theorem boundOf?_eq (hd : Bounded rs d) {kind : String} {x : Double}
    (h : d.boundTarget kind rest = .ok (name, x)) :
    boundOf? (contentOf rs).columns kind rest = some ⟨kind, name, x⟩ := by
  rw [boundTarget.eq_def] at h
  rw [boundOf?.eq_def]
  split at h
  case isTrue hvalue =>
    rw [if_pos hvalue]
    rcases hreverse : rest.reverse with _ | ⟨number, _ | ⟨column, front⟩⟩ <;> rw [hreverse] at h
    · cases h
    · cases h
    · obtain ⟨y, hy, heq⟩ := Except.map_eq_ok.mp h
      cases heq
      simp [toNumber_eq_ok.mp hy]
  case isFalse hvalue =>
    rw [if_neg hvalue]
    split at h
    case h_1 first second later =>
      have hknown : (d.column? second).isSome = (contentOf rs).columns.contains second := by
        rw [Bool.eq_iff_iff, isSome_column?, hd.names, List.contains_iff_mem]
      rw [hknown] at h
      cases h
      rfl
    case h_2 first =>
      cases h
      rfl
    case h_3 => cases h

theorem bound (hd : Bounded rs d) (h : d.boundRecord (Text.upper word) rest = .ok e) :
    Bounded (rs ++ [⟨.bounds, word :: rest⟩]) e := by
  obtain ⟨⟨name, x⟩, htarget, h⟩ := Except.bind_eq_ok.mp h
  obtain ⟨hname, cs, hcs, rfl⟩ := changeColumn_eq_ok h
  have hbound : Record.bound? (contentOf rs).columns ⟨.bounds, word :: rest⟩ =
      some ⟨Text.upper word, name, x⟩ := hd.boundOf?_eq htarget
  have hsame := names_setBound hcs
  refine ⟨fun other => ?names, ?placed, fun c' hc' => ?columns⟩
  case names =>
    rw [hsame, hd.names, columns_contentOf_concat]
    show _ ↔ other ∈ (contentOf rs).columns ++ []
    rw [List.append_nil]
  case placed =>
    rw [boundsFrom_concat, List.nil_append, hbound, hsame]
    exact List.forall_mem_append.mpr ⟨hd.placed, List.forall_mem_singleton.mpr hname⟩
  case columns =>
    obtain ⟨c, hc, hchange⟩ := exists_mem_of_forall₂ hcs.flip hc'
    have hfollows := hd.columns c hc
    split at hchange
    case isTrue heq =>
      obtain rfl := eq_of_beq heq
      rw [setBound_name hchange, boundsOf_concat_self hbound]
      exact hfollows.concat hchange
    case isFalse hne =>
      cases hchange
      rw [boundsOf_concat_of_ne]
      · exact hfollows
      · rw [hbound]
        intro b hb heq
        cases hb
        exact hne (beq_iff_eq.mpr heq.symm)

theorem record (hwords : ∀ w ∈ word :: rest, Text.isWord w = true) (hd : Bounded rs d)
    (h : d.record word rest = .ok e) : Bounded (rs ++ [⟨d.part, word :: rest⟩]) e := by
  rw [Reading.record] at h
  cases hpart : d.part <;> rw [hpart] at h <;> dsimp only at h
  case start => cases h
  case ended => cases h
  case sense =>
    cases h
    exact hd.silent rfl rfl rfl
  case rows => exact hd.silent (columns_rowRecord hwords h) (columns_rowContent _) rfl
  case rhs => exact hd.silent (columns_rhsRecord h) rfl rfl
  case ranges => exact hd.silent (columns_rangeRecord h) rfl rfl
  case bounds => exact hd.bound h
  case columns =>
    rcases columns_columnRecord h with ⟨hnames, hcolumns⟩ | ⟨name, hnames, hcolumns⟩
    · exact hd.silent hcolumns hnames rfl
    · exact hd.openColumn hnames rfl hcolumns

end Bounded

theorem bounded_start : Bounded [] {} where
  names _ := iff_of_false List.not_mem_nil List.not_mem_nil
  placed := List.forall_mem_nil _
  columns := List.forall_mem_nil _

theorem lines_bounded {ls : List (Nat × Line)} (hworded : ∀ l ∈ ls, Worded l.2)
    (h : lines {} ls = .ok d) : Bounded (records .start (ls.map (·.2))) d :=
  lines_preserves (P := Bounded) (fun hwords hd h => hd.record hwords h)
    (fun _ hd h => hd.frame (header_frame h).2) hworded [] bounded_start h

end Reading

/-- A place in a text: what the lines before it are read as. -/
structure At (text : String) (ls : List (Nat × Line)) (d : Reading) : Prop where
  before : ls <+: Line.numbered text
  read : Reading.lines {} ls = .ok d

def boundsBy (ls : List (Nat × Line)) (name : String) : List Bound :=
  boundsOf (records .start (ls.map (·.2))) name

theorem At.follows {text : String} {ls : List (Nat × Line)} {d : Reading} (h : At text ls d) :
    ∀ c ∈ d.columns, Follows (boundsBy ls c.name) c := by
  have hworded : ∀ l ∈ ls, Reading.Worded l.2 := fun l hl =>
    Reading.worded_numbered l (h.before.subset hl)
  exact (Reading.lines_bounded hworded h.read).columns

/-- What the records of a text make of the bounds. An upper bound changes the lower one exactly if it
is negative and the lower one is zero, given or not. A lower bound that is given stays, unless it is
zero and a negative upper bound comes after it, and but for that the order of the two does not matter. -/
structure BoundsFollow (text : String) (p : Program) : Prop where
  reached : ∀ ls, ls <+: Line.numbered text → ∃ d, At text ls d
  finished : ∃ d, At text (Line.numbered text) d ∧ p.columns = d.columns
  follows : ∀ ls d, At text ls d → ∀ c ∈ d.columns, Follows (boundsBy ls c.name) c
  changed : ∀ ls ms d e, At text ls d → At text ms e → ∀ c ∈ d.columns, ∀ c' ∈ e.columns,
    c'.name = c.name → ∀ b, b.isUpper = true → boundsBy ms c.name = boundsBy ls c.name ++ [b] →
      (c'.lower ≠ c.lower ↔ b.value.numLt .zero = true ∧
        (∀ l ∈ givenLower (boundsBy ls c.name), (l == .zero) = true) ∧
        (afterLower (boundsBy ls c.name)).any (·.frees) = false)
  kept : ∀ ls d, At text ls d → ∀ c ∈ d.columns, ∀ l, givenLower (boundsBy ls c.name) = some l →
    ¬ ((l == .zero) = true ∧ (afterLower (boundsBy ls c.name)).any (·.frees) = true) → c.lower = l
  exchanged : ∀ ls d text' ms e, At text ls d → At text' ms e → ∀ c ∈ d.columns, ∀ c' ∈ e.columns,
    ∀ before lo up after, lo.isLower = true → up.isUpper = true →
      boundsBy ls c.name = before ++ lo :: up :: after →
      boundsBy ms c'.name = before ++ up :: lo :: after →
      ¬ ((lo.value == .zero) = true ∧ up.value.numLt .zero = true) →
        c'.lower = c.lower ∧ c'.upper = c.upper

theorem bounds_follow_records {text : String} {p : Program} (h : read text = .ok p) :
    BoundsFollow text p := by
  obtain ⟨d, hlines, hprogram⟩ := read_eq_ok h
  obtain ⟨-, rfl⟩ := Reading.toProgram_eq_ok hprogram
  constructor
  case reached =>
    rintro ls ⟨more, hmore⟩
    obtain ⟨e, he⟩ := Reading.exists_lines_of_append (hmore.symm ▸ hlines)
    exact ⟨e, ⟨more, hmore⟩, he⟩
  case finished => exact ⟨d, ⟨List.prefix_refl _, hlines⟩, rfl⟩
  case follows => exact fun ls d hd => hd.follows
  case changed =>
    intro ls ms d e hd he c hc c' hc' hname b hb hgrown
    have hlower := (he.follows c' hc').lower
    rw [hname, hgrown] at hlower
    rw [hlower, (hd.follows c hc).lower]
    exact lowerOf_concat_ne_iff hb
  case kept =>
    intro ls d hd c hc l hl hkeep
    rw [(hd.follows c hc).lower]
    exact lowerOf_of_given hl hkeep
  case exchanged =>
    intro ls d text' ms e hd he c hc c' hc' before lo up after hlo hup hls hms hkeep
    obtain ⟨hlower, hupper⟩ := hd.follows c hc
    obtain ⟨hlower', hupper'⟩ := he.follows c' hc'
    rw [hlower, hlower', hupper, hupper', hls, hms]
    exact ⟨(lowerOf_exchange hlo hup hkeep before after).symm,
      (upperOf_exchange hlo hup before after).symm⟩

def signs : String :=
  "ROWS\n N OBJ\nCOLUMNS\n x OBJ 1\n y OBJ 1\n z OBJ 1\nBOUNDS\n UP BND x -5\n LO BND y -8\n" ++
    " UP BND y -2\n FR z\n UI BND z -1\n LI BND x -7\nENDATA\n"

theorem bounds_follow_records_signs : ∃ p, read signs = .ok p ∧ BoundsFollow signs p := by
  have hok : (read signs).isOk = true := by decide +kernel
  cases hread : read signs with
  | error e =>
      rw [hread] at hok
      cases hok
  | ok p => exact ⟨p, rfl, bounds_follow_records hread⟩

def zeroFirst : String :=
  "NAME t\nROWS\n N  OBJ\nCOLUMNS\n    x  OBJ  1\nBOUNDS\n LO BND  x  0\n UP BND  x  -5\nENDATA\n"

def zeroLast : String :=
  "NAME t\nROWS\n N  OBJ\nCOLUMNS\n    x  OBJ  1\nBOUNDS\n UP BND  x  -5\n LO BND  x  0\nENDATA\n"

/-- A lower bound that is given as zero does not stay, and the order of two records matters. -/
theorem zero_lower_not_kept :
    givenLower (boundsBy (Line.numbered zeroFirst) "x") = some .zero ∧
    boundsBy (Line.numbered zeroLast) "x" = (boundsBy (Line.numbered zeroFirst) "x").reverse ∧
    (read zeroFirst).toOption.map (·.columns.map fun c => (c.name, c.lower)) =
      some [("x", .negInfinity)] ∧
    (read zeroLast).toOption.map (·.columns.map fun c => (c.name, c.lower)) =
      some [("x", .zero)] := by
  decide +kernel

end LinOpt.Mps
