import LinOpt.Proofs.Mps.Rows

namespace LinOpt.Mps

/-- What is listed for a column: without coefficients, a zero in the objective. -/
def listed (es : Entries) : Entries := if es.isEmpty then [(objectiveName, .zero)] else es

/-- The terms that the entries of a column give to a row, or to the objective. -/
def termsFor (name : String) (column : Nat) (es : Entries) : List (Nat × Double) :=
  (es.filter (·.1 == name)).map fun e => (column, e.2)

def opened (c : Column) : Column :=
  ⟨c.name, .zero, .infinity, if c.kind.isIntegral then .integer else .continuous⟩

theorem toNumber_text {x : Double} (hx : x.isNaN = false) : toNumber x.text = .ok x := by
  rw [toNumber, Double.parse?_text hx]

structure Enterable (names : List String) (e : String × Double) : Prop where
  known : e.1 = objectiveName ∨ e.1 ∈ names
  word : Text.isWord e.1 = true
  no_marker : e.1 ≠ "'MARKER'"
  number : toNumber e.2.text = .ok e.2

theorem columnLines_eq (name : String) (es : Entries) :
    columnLines name es = (listed es).map fun e => record name e.1 e.2.text := by
  cases es with
  | nil => rfl
  | cons e es => rfl

theorem listed_ne_nil (es : Entries) : listed es ≠ [] := by
  cases es with
  | nil => exact List.cons_ne_nil _ _
  | cons e es => exact List.cons_ne_nil _ _

theorem isWord_objectiveName : Text.isWord objectiveName = true := by decide

theorem enterable_objective {names : List String} {x : Double} (hx : toNumber x.text = .ok x) :
    Enterable names (objectiveName, x) where
  known := .inl rfl
  word := isWord_objectiveName
  no_marker := show objectiveName ≠ "'MARKER'" by decide
  number := hx

theorem enterable_listed {names : List String} {es : Entries} (h : ∀ e ∈ es, Enterable names e) :
    ∀ e ∈ listed es, Enterable names e := by
  cases es with
  | nil =>
      intro e he
      rw [List.mem_singleton.mp he]
      exact enterable_objective (toNumber_text Double.isNaN_zero)
  | cons e es => exact h

theorem termsFor_append (name : String) (j : Nat) (es fs : Entries) :
    termsFor name j (es ++ fs) = termsFor name j es ++ termsFor name j fs := by
  rw [termsFor, List.filter_append, List.map_append]
  rfl

theorem termsFor_self (name : String) (j : Nat) (x : Double) :
    termsFor name j [(name, x)] = [(j, x)] := by
  simp [termsFor]

theorem termsFor_of_ne {name other : String} (h : other ≠ name) (j : Nat) (x : Double) :
    termsFor name j [(other, x)] = [] := by
  simp [termsFor, h]

namespace Reading

variable {d : Reading} {name : String} {names : List String}

def enterListed (d : Reading) (j : Nat) (es : Entries) : Reading :=
  { d with
    objective := d.objective ++ termsFor objectiveName j es
    rows := d.rows.map fun r => { r with terms := r.terms ++ termsFor r.name j es } }

theorem enterListed_append (d : Reading) (j : Nat) (es fs : Entries) :
    (d.enterListed j es).enterListed j fs = d.enterListed j (es ++ fs) := by
  simp [enterListed, termsFor_append, Function.comp_def]

theorem names_enterListed (d : Reading) (j : Nat) (es : Entries) :
    (d.enterListed j es).rows.map (·.name) = d.rows.map (·.name) :=
  names_map (g := fun r => { r with terms := r.terms ++ termsFor r.name j es }) (fun _ => rfl) d.rows

theorem openColumn_of_eq_some {j : Nat} (h : d.column? name = some j) :
    d.openColumn name = (d, j) := by
  rw [openColumn, h]

theorem column?_eq_none (h : name ∉ d.columns.map (·.name)) : d.column? name = none := by
  rw [column?, List.findIdx?_eq_none_iff]
  intro c hc
  refine beq_eq_false_iff_ne.mpr fun heq => h ?_
  exact List.mem_map.mpr ⟨c, hc, heq⟩

theorem isSome_column? : (d.column? name).isSome = true ↔ name ∈ d.columns.map (·.name) := by
  rw [column?, List.findIdx?_isSome]
  simp

theorem openColumn_of_fresh (h : name ∉ d.columns.map (·.name)) :
    d.openColumn name = ({ d with columns := d.columns ++
      [⟨name, .zero, .infinity, if d.integral then .integer else .continuous⟩] },
      d.columns.length) := by
  rw [openColumn, column?_eq_none h]

theorem column?_openColumn (d : Reading) (name : String) :
    (d.openColumn name).1.column? name = some (d.openColumn name).2 := by
  cases h : d.column? name with
  | some j => rw [openColumn_of_eq_some h, h]
  | none =>
      have hnone := h
      rw [column?] at hnone
      rw [openColumn, h, column?, List.findIdx?_append, hnone]
      simp

theorem enterListed_objective (hobj : objectiveName ∉ d.rows.map (·.name)) (j : Nat) (x : Double) :
    d.enterListed j [(objectiveName, x)] = { d with objective := d.objective ++ [(j, x)] } := by
  have hrows : (d.rows.map fun r =>
      { r with terms := r.terms ++ termsFor r.name j [(objectiveName, x)] }) = d.rows := by
    refine (List.map_congr_left fun r hr => ?_).trans (List.map_id _)
    have hne : objectiveName ≠ r.name := fun h => hobj (h ▸ List.mem_map_of_mem hr)
    rw [termsFor_of_ne hne, List.append_nil]
    rfl
  rw [enterListed, hrows, termsFor_self]

theorem enterListed_row (hne : name ≠ objectiveName) (j : Nat) (x : Double) :
    d.enterListed j [(name, x)] = { d with
      rows := d.rows.map fun r =>
        if r.name == name then { r with terms := r.terms ++ [(j, x)] } else r } := by
  have hrows : (d.rows.map fun r => { r with terms := r.terms ++ termsFor r.name j [(name, x)] }) =
      d.rows.map fun r => if r.name == name then { r with terms := r.terms ++ [(j, x)] } else r := by
    apply List.map_congr_left
    intro r _
    by_cases h : r.name = name
    · rw [if_pos (beq_iff_eq.mpr h), h, termsFor_self]
    · rw [if_neg (mt eq_of_beq h), termsFor_of_ne (Ne.symm h), List.append_nil]
  rw [enterListed, hrows, termsFor_of_ne hne, List.append_nil]

theorem columnEntry_text {x : Double} (hobjective : d.objectiveRow = some objectiveName)
    (hobj : objectiveName ∉ d.rows.map (·.name))
    (he : Enterable (d.rows.map (·.name)) (name, x)) (j : Nat) :
    columnEntry j d (name, x.text) = .ok (d.enterListed j [(name, x)]) := by
  rw [columnEntry, he.number]
  simp only [bind, Except.bind, isObjective_eq hobjective]
  by_cases hname : name = objectiveName
  · rw [hname, enterListed_objective hobj, if_pos (beq_self_eq_true objectiveName)]
    rfl
  · rw [enterListed_row hname, if_neg (mt eq_of_beq (Ne.symm hname))]
    exact changeRow_eq (he.known.resolve_left hname)

theorem rows_openColumn (d : Reading) (name : String) : (d.openColumn name).1.rows = d.rows := by
  rw [openColumn]
  split <;> rfl

theorem objectiveRow_openColumn (d : Reading) (name : String) :
    (d.openColumn name).1.objectiveRow = d.objectiveRow := by
  rw [openColumn]
  split <;> rfl

theorem part_openColumn (d : Reading) (name : String) : (d.openColumn name).1.part = d.part := by
  rw [openColumn]
  split <;> rfl

theorem line_record {a b c : String} (hpart : d.part = .columns) (hmarker : b ≠ "'MARKER'") :
    d.line ⟨true, [a, b, c]⟩ = columnEntry (d.openColumn a).2 (d.openColumn a).1 (b, c) := by
  have hodd : ¬ [a, b, c].length % 2 = 0 := by simp
  simp only [line, Reading.record, hpart, columnRecord, if_neg hmarker, if_true, if_neg hodd]
  exact bind_pure (columnEntry (d.openColumn a).2 (d.openColumn a).1 (b, c))

theorem leads_columnEntries {es : Entries} (hne : es ≠ []) (hpart : d.part = .columns)
    (hobjective : d.objectiveRow = some objectiveName)
    (hobj : objectiveName ∉ d.rows.map (·.name)) (hname : Text.isWord name = true)
    (hes : ∀ e ∈ es, Enterable (d.rows.map (·.name)) e) :
    Leads d (es.map fun e => Mps.record name e.1 e.2.text)
      ((d.openColumn name).1.enterListed (d.openColumn name).2 es) := by
  induction es generalizing d with
  | nil => exact absurd rfl hne
  | cons e es ih =>
      have he := hes e List.mem_cons_self
      have hopen := columnEntry_text (d := (d.openColumn name).1)
        (by rwa [objectiveRow_openColumn]) (by rwa [rows_openColumn]) (by rwa [rows_openColumn])
        (d.openColumn name).2
      rw [← line_record hpart he.no_marker] at hopen
      have hreads := reads_record hname he.word e.2.isWord_text
      have hpart' : ((d.openColumn name).1.enterListed (d.openColumn name).2 [e]).part = .columns :=
        (part_openColumn d name).trans hpart
      have hgo : ((d.openColumn name).1.enterListed (d.openColumn name).2 [e]).part ≠ .ended := by
        rw [hpart']
        decide
      cases es with
      | nil => exact .single hreads hopen hgo
      | cons e' es =>
          have hnames : ((d.openColumn name).1.enterListed (d.openColumn name).2 [e]).rows.map (·.name) =
              d.rows.map (·.name) := by
            rw [names_enterListed, rows_openColumn]
          have hagain : ((d.openColumn name).1.enterListed (d.openColumn name).2 [e]).openColumn name =
              ((d.openColumn name).1.enterListed (d.openColumn name).2 [e], (d.openColumn name).2) :=
            openColumn_of_eq_some (column?_openColumn d name)
          have hrest := ih (d := (d.openColumn name).1.enterListed (d.openColumn name).2 [e])
            (List.cons_ne_nil _ _) hpart' ((objectiveRow_openColumn d name).trans hobjective)
            (by rwa [hnames]) (fun e'' h => hnames.symm ▸ hes e'' (List.mem_cons_of_mem e h))
          rw [hagain, enterListed_append] at hrest
          exact .cons hreads hopen hgo hrest

theorem isWord_marker (k : Nat) : Text.isWord ("MARKER" ++ toString k) = true :=
  Double.isWord_append_toString (by decide) k

theorem reads_marker (k : Nat) (integral : Bool) : Reads (Mps.marker k integral)
    ⟨true, ["MARKER" ++ toString k, "'MARKER'", if integral then "'INTORG'" else "'INTEND'"]⟩ := by
  have hmarker : Text.isWord "'MARKER'" = true := by decide
  refine reads_record (isWord_marker k) hmarker ?_
  cases integral <;> decide

theorem leads_marker (hpart : d.part = .columns) (k : Nat) (integral : Bool) :
    Leads d [Mps.marker k integral] { d with integral := integral } := by
  have hgo : ({ d with integral := integral } : Reading).part ≠ .ended := by simp [hpart]
  refine .single (reads_marker k integral) ?_ hgo
  cases integral with
  | true => simp [line, Reading.record, hpart, columnRecord, Reading.marker]
  | false => simp [line, Reading.record, hpart, columnRecord, Reading.marker]

theorem leads_block (hpart : d.part = .columns) (k : Nat) (integral : Bool) :
    Leads d (if integral = d.integral then [] else [Mps.marker k integral])
      { d with integral := integral } := by
  split
  case isTrue h =>
    rw [h]
    exact .nil d
  case isFalse => exact leads_marker hpart k integral

def entered (E : Nat → Entries) (cs : List Column) (d : Reading) : Reading :=
  { d with
    columns := d.columns ++ cs.map opened
    objective := d.objective ++ (List.range' d.columns.length cs.length).flatMap fun j =>
      termsFor objectiveName j (listed (E j))
    rows := d.rows.map fun r => { r with
      terms := r.terms ++ (List.range' d.columns.length cs.length).flatMap fun j =>
        termsFor r.name j (listed (E j)) }
    integral := false }

theorem names_entered (E : Nat → Entries) (cs : List Column) (d : Reading) :
    (entered E cs d).rows.map (·.name) = d.rows.map (·.name) :=
  names_map (g := fun r => { r with
    terms := r.terms ++ (List.range' d.columns.length cs.length).flatMap fun j =>
      termsFor r.name j (listed (E j)) }) (fun _ => rfl) d.rows

theorem entered_cons (E : Nat → Entries) (c : Column) (cs : List Column) (d : Reading) :
    let block : Reading := { d with
      columns := d.columns ++ [opened c], integral := c.kind.isIntegral }
    (block.enterListed d.columns.length (listed (E d.columns.length))).entered E cs =
      d.entered E (c :: cs) := by
  simp [entered, enterListed, List.range'_succ, Function.comp_def]

theorem columnsPart_cons (inBlock : Bool) (k : Nat) (c : Column) (es : Entries)
    (rest : List (Column × Entries)) :
    columnsPart inBlock k ((c, es) :: rest) =
      (if c.kind.isIntegral = inBlock then [] else [Mps.marker k c.kind.isIntegral]) ++
        (columnLines c.name es ++ columnsPart c.kind.isIntegral
          (if c.kind.isIntegral = inBlock then k else k + 1) rest) := by
  rw [columnsPart]
  by_cases h : c.kind.isIntegral = inBlock
  · simp [h]
  · simp [h]

theorem leads_columnsPart (E : Nat → Entries) {cs : List Column} {k : Nat}
    (hpart : d.part = .columns) (hobjective : d.objectiveRow = some objectiveName)
    (hobj : objectiveName ∉ d.rows.map (·.name)) (hword : ∀ c ∈ cs, Text.isWord c.name = true)
    (hE : ∀ j, ∀ e ∈ E j, Enterable (d.rows.map (·.name)) e)
    (hnodup : (d.columns.map (·.name) ++ cs.map (·.name)).Nodup) :
    Leads d (columnsPart d.integral k ((cs.zipIdx d.columns.length).map fun c => (c.1, E c.2)))
      (entered E cs d) := by
  -- the reading knows the number of the next column and whether a block of integers is open
  induction cs generalizing d k with
  | nil =>
      have hsame : entered E [] d = { d with integral := false } := by simp [entered]
      rw [hsame, List.zipIdx_nil, List.map_nil, columnsPart]
      cases h : d.integral with
      | true => exact leads_marker hpart k false
      | false =>
          have hd : ({ d with integral := false } : Reading) = d := by rw [← h]
          rw [hd]
          exact .nil d
  | cons c cs ih =>
      have hfresh : c.name ∉ d.columns.map (·.name) := by
        intro h
        exact (List.nodup_append.mp hnodup).2.2 c.name h c.name List.mem_cons_self rfl
      let block : Reading := { d with integral := c.kind.isIntegral }
      have hopen : block.openColumn c.name =
          ({ block with columns := d.columns ++ [opened c] }, d.columns.length) :=
        openColumn_of_fresh hfresh
      have hcolumn := leads_columnEntries (d := block) (listed_ne_nil (E d.columns.length)) hpart
        hobjective hobj (hword c List.mem_cons_self) (enterable_listed (hE d.columns.length))
      rw [hopen, ← columnLines_eq] at hcolumn
      let done : Reading := { block with columns := d.columns ++ [opened c] }
      have hlength : (done.enterListed d.columns.length (listed (E d.columns.length))).columns.length =
          d.columns.length + 1 := by simp [done, enterListed]
      have hrest := ih (d := done.enterListed d.columns.length (listed (E d.columns.length)))
        (k := if c.kind.isIntegral = d.integral then k else k + 1) hpart hobjective
        (by rwa [names_enterListed]) (fun c' h => hword c' (List.mem_cons_of_mem c h))
        (by simpa only [names_enterListed] using hE)
        (by simpa [done, enterListed, opened] using hnodup)
      rw [hlength, entered_cons] at hrest
      rw [List.zipIdx_cons, List.map_cons, columnsPart_cons]
      exact (leads_block hpart k _).append (hcolumn.append hrest)

end Reading

end LinOpt.Mps
