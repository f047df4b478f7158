import LinOpt.Proofs.Mps.Lines

namespace LinOpt.Mps.Reading

/-- Reading the lines takes the first state to the second, and no end header stands among them. -/
inductive Leads : Reading → List String → Reading → Prop
  | nil (d) : Leads d [] d
  | cons {d e f : Reading} {s : String} {l : Line} {ss : List String} (hs : Reads s l)
      (hl : d.line l = .ok e) (hpart : e.part ≠ .ended) (h : Leads e ss f) : Leads d (s :: ss) f

variable {d e f : Reading} {ss ts : List String}

theorem Leads.single {s : String} {l : Line} (hs : Reads s l) (hl : d.line l = .ok e)
    (hpart : e.part ≠ .ended) : Leads d [s] e :=
  .cons hs hl hpart (.nil e)

theorem Leads.append (h : Leads d ss e) (h' : Leads e ts f) : Leads d (ss ++ ts) f := by
  induction h with
  | nil d => exact h'
  | cons hs hl hpart _ ih => exact .cons hs hl hpart (ih h')

theorem Leads.not_mem (h : Leads d ss e) : ∀ s ∈ ss, '\n' ∉ s.toList := by
  induction h with
  | nil d => exact List.forall_mem_nil _
  | cons hs _ _ _ ih => exact List.forall_mem_cons.mpr ⟨hs.1, ih⟩

def linesFrom (d : Reading) (css : List (List Char)) (n : Nat) : Except Error Reading :=
  d.lines ((css.zipIdx n).filterMap fun c => (Line.ofChars? c.1).map (c.2, ·))

theorem linesFrom_of_silent {cs : List Char} (h : Line.ofChars? cs = none) (css : List (List Char)) (n : Nat) :
    d.linesFrom (cs :: css) n = d.linesFrom css (n + 1) := by
  rw [linesFrom, List.zipIdx_cons, List.filterMap_cons, h]
  rfl

theorem linesFrom_of_spoken {cs : List Char} {l : Line} (h : Line.ofChars? cs = some l)
    (css : List (List Char)) (n : Nat) :
    d.linesFrom (cs :: css) n = match d.line l with
      | .error f => .error (.atLine n f)
      | .ok e => if e.part = .ended then .ok e else e.linesFrom css (n + 1) := by
  rw [linesFrom, List.zipIdx_cons, List.filterMap_cons, h, Option.map_some, lines]
  rfl

theorem linesFrom_cons {s : String} {l : Line} (hs : Reads s l) (hl : d.line l = .ok e)
    (css : List (List Char)) (n : Nat) :
    d.linesFrom (s.toList :: css) n =
      if e.part = .ended then .ok e else e.linesFrom css (n + 1) := by
  rw [linesFrom_of_spoken hs.2, hl]

theorem Leads.linesFrom (h : Leads d ss e) (css : List (List Char)) (n : Nat) :
    d.linesFrom (ss.map String.toList ++ css) n = e.linesFrom css (n + ss.length) := by
  induction h generalizing n with
  | nil d => rfl
  | cons hs hl hpart _ ih =>
      rw [List.map_cons, List.cons_append, linesFrom_cons hs hl, if_neg hpart, ih, List.length_cons,
        Nat.add_assoc, Nat.add_comm 1]

theorem read_eq (text : String) :
    read text = (linesFrom {} (Text.lines text) 1).bind toProgram := rfl

theorem Leads.read (h : Leads {} ss d) (hobjective : d.objectiveRow.isSome = true) :
    Mps.read (String.join ((ss ++ ["ENDATA"]).map (· ++ "\n"))) =
      .ok ⟨d.name, d.columns, d.rows.map (·.close), d.objective, d.offset, d.maximize⟩ := by
  have hend : Reads "ENDATA" ⟨false, ["ENDATA"]⟩ := reads_header .ended
  have hline : d.line ⟨false, ["ENDATA"]⟩ = .ok (d.inPart .ended) := rfl
  have hmem : ∀ s ∈ ss ++ ["ENDATA"], '\n' ∉ s.toList := by
    intro s hs
    rcases List.mem_append.mp hs with hs | hs
    · exact h.not_mem s hs
    · rw [List.mem_singleton.mp hs]
      exact hend.1
  rw [read_eq, Text.lines_join hmem, List.map_append, List.append_assoc, h.linesFrom, List.map_cons,
    List.cons_append, linesFrom_cons hend hline, if_pos (show (d.inPart .ended).part = .ended from rfl)]
  have hsome : d.objectiveRow.isNone = false := by
    cases hrow : d.objectiveRow with
    | none =>
        rw [hrow] at hobjective
        cases hobjective
    | some name => rfl
  rw [show Except.bind (.ok (d.inPart .ended)) toProgram = toProgram (d.inPart .ended) from rfl,
    toProgram, show (d.inPart .ended).objectiveRow = d.objectiveRow from rfl, hsome]
  rfl

end LinOpt.Mps.Reading
