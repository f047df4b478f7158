import LinOpt.Proofs.Mps.Leads
import Mathlib.Data.List.Forall2

namespace LinOpt.Text

theorem words_eq_nil_iff {cs : List Char} : words cs = [] ↔ ∀ c ∈ cs, isBlank c = true := by
  induction cs with
  | nil => exact iff_of_true rfl nofun
  | cons c cs ih =>
      cases hc : isBlank c with
      | true =>
          rw [words_cons cs hc, ih, List.forall_mem_cons]
          exact (and_iff_right hc).symm
      | false =>
          obtain ⟨ds, dss, hsplit⟩ := List.exists_cons_of_ne_nil (List.splitOnP_ne_nil isBlank cs)
          refine iff_of_false ?_ fun hall => ?_
          · rw [words, List.splitOnP_cons_eq_if_modifyHead, hc, if_neg Bool.false_ne_true, hsplit]
            simp
          · rw [hall c List.mem_cons_self] at hc
            cases hc

end LinOpt.Text

namespace LinOpt.Mps

/-- Whether a line says something: it is not blank throughout and does not begin with a star. -/
def speaks (cs : List Char) : Bool := cs.any (fun c => !Text.isBlank c) && cs.head? != some '*'

/-- The words of a line, and whether it begins with a blank. -/
def saying (cs : List Char) : List String × Bool := (Text.words cs, cs.head?.any Text.isBlank)

/-- The lines that say something, with their numbers in the whole text. -/
def spoken (text : String) : List (List Char × Nat) :=
  ((Text.lines text).zipIdx 1).filter fun l => speaks l.1

/-- Two texts that say the same, line by line. -/
def SameLayout (s t : String) : Prop :=
  (spoken s).map (fun l => saying l.1) = (spoken t).map fun l => saying l.1

def lineOf (l : List Char × Nat) : Nat × Line := (l.2, ⟨(saying l.1).2, (saying l.1).1⟩)

theorem ofChars?_eq (cs : List Char) : Line.ofChars? cs =
    if speaks cs then some ⟨(saying cs).2, (saying cs).1⟩ else none := by
  have hwords : speaks cs = true ↔ Text.words cs ≠ [] ∧ cs.head? ≠ some '*' := by
    rw [speaks, ne_eq, Text.words_eq_nil_iff]
    simp
  rw [Line.ofChars?, saying]
  cases h : Text.words cs with
  | nil => rw [if_neg (by simp [hwords, h])]
  | cons w ws =>
      by_cases hstar : cs.head? = some '*'
      · rw [if_neg (by simp [hwords, hstar])]
        exact if_pos hstar
      · rw [if_pos (by simp [hwords, h, hstar])]
        exact if_neg hstar

theorem numbered_eq (text : String) : Line.numbered text = (spoken text).map lineOf := by
  rw [Line.numbered, spoken]
  induction (Text.lines text).zipIdx 1 with
  | nil => rfl
  | cons l ls ih =>
      obtain ⟨cs, n⟩ := l
      rw [List.filterMap_cons, ih]
      dsimp only
      rw [ofChars?_eq]
      cases h : speaks cs with
      | true => simp [h, lineOf]
      | false => simp [h]

/-- Answers to two texts whose lines say the same. An error names the line in the same place, by its
number in its own text. -/
inductive Alike {α : Type} (ss ts : List (List Char × Nat)) : Except Error α → Except Error α → Prop
  | ok (a : α) : Alike ss ts (.ok a) (.ok a)
  | fault {cs ds : List Char} {i m n : Nat} (f : Fault) (hs : ss[i]? = some (cs, m))
      (ht : ts[i]? = some (ds, n)) : Alike ss ts (.error (.atLine m f)) (.error (.atLine n f))
  | objective : Alike ss ts (.error .missingObjectiveRow) (.error .missingObjectiveRow)

namespace Alike

variable {α β : Type} {ss ts : List (List Char × Nat)}

theorem cons {x y : Except Error α} (h : Alike ss ts x y) (a b : List Char × Nat) :
    Alike (a :: ss) (b :: ts) x y := by
  cases h with
  | ok a => exact .ok a
  | @fault cs ds i m n f hs ht => exact .fault (i := i + 1) f hs ht
  | objective => exact .objective

theorem bind {x y : Except Error α} (h : Alike ss ts x y) {f : α → Except Error β}
    (hf : ∀ a, Alike ss ts (f a) (f a)) : Alike ss ts (x.bind f) (y.bind f) := by
  cases h with
  | ok a => exact hf a
  | fault f hs ht => exact .fault f hs ht
  | objective => exact .objective

theorem toProgram (d : Reading) : Alike ss ts d.toProgram d.toProgram := by
  rw [Reading.toProgram]
  split
  · exact .objective
  · exact .ok _

theorem lines (h : List.Forall₂ (fun a b => saying a.1 = saying b.1) ss ts) (d : Reading) :
    Alike ss ts (d.lines (ss.map lineOf)) (d.lines (ts.map lineOf)) := by
  induction h generalizing d with
  | nil => exact .ok d
  | @cons a b ss ts hab _ ih =>
      have hline : (lineOf b).2 = (lineOf a).2 := by rw [lineOf, lineOf, hab]
      rw [List.map_cons, List.map_cons, Reading.lines, Reading.lines, hline]
      cases d.line (lineOf a).2 with
      | error f => exact .fault (i := 0) f rfl rfl
      | ok e =>
          dsimp only
          split
          · exact .ok e
          · exact (ih e).cons a b

end Alike

theorem alike_of_sameLayout {s t : String} (h : SameLayout s t) :
    Alike (spoken s) (spoken t) (read s) (read t) := by
  rw [SameLayout, ← List.forall₂_eq_eq_eq, List.forall₂_map_left_iff, List.forall₂_map_right_iff] at h
  have hlines := Alike.lines h {}
  rw [← numbered_eq, ← numbered_eq] at hlines
  exact hlines.bind Alike.toProgram

/-- The header line with the word for the end. -/
structure EndsText (cs : List Char) : Prop where
  spoken : speaks cs = true
  header : (saying cs).2 = false
  word : (saying cs).1.head?.map Text.upper = some "ENDATA"

namespace Reading

variable {d : Reading} {cs : List Char}

theorem exists_line_of_endsText (h : EndsText cs) :
    ∃ l, Line.ofChars? cs = some l ∧ ∀ d : Reading, d.line l = .ok (d.inPart .ended) := by
  refine ⟨_, (ofChars?_eq cs).trans (if_pos h.spoken), fun d => ?_⟩
  obtain ⟨w, hw, hupper⟩ := Option.map_eq_some_iff.mp h.word
  obtain ⟨ws, hwords⟩ := List.head?_eq_some_iff.mp hw
  rw [h.header, hwords]
  simp only [line, header, hupper]
  rfl

theorem linesFrom_end (h : EndsText cs) (pre rest more : List (List Char)) (d : Reading) (n : Nat) :
    d.linesFrom (pre ++ cs :: rest) n = d.linesFrom (pre ++ cs :: more) n := by
  induction pre generalizing d n with
  | nil =>
      obtain ⟨l, hl, hend⟩ := exists_line_of_endsText h
      rw [List.nil_append, List.nil_append, linesFrom_of_spoken hl, linesFrom_of_spoken hl, hend]
      rfl
  | cons ds pre ih =>
      rw [List.cons_append, List.cons_append]
      cases hl : Line.ofChars? ds with
      | none => rw [linesFrom_of_silent hl, linesFrom_of_silent hl, ih]
      | some l =>
          rw [linesFrom_of_spoken hl, linesFrom_of_spoken hl]
          cases d.line l with
          | error f => rfl
          | ok e => simp only [ih]

theorem linesFrom_eq_error {css : List (List Char)} {n : Nat} {e : Error}
    (h : d.linesFrom css n = .error e) : ∃ pre cs rest f, css = pre ++ cs :: rest ∧
      e = .atLine (n + pre.length) f ∧ (∃ d', d.linesFrom pre n = .ok d') ∧
      ∀ more, d.linesFrom (pre ++ cs :: more) n = .error e := by
  induction css generalizing d n with
  | nil => cases h
  | cons cs css ih =>
      cases hl : Line.ofChars? cs with
      | none =>
          rw [linesFrom_of_silent hl] at h
          obtain ⟨pre, ds, rest, f, rfl, rfl, ⟨d', hd'⟩, hmore⟩ := ih h
          refine ⟨cs :: pre, ds, rest, f, rfl, ?_, ⟨d', ?_⟩, fun more => ?_⟩
          · rw [List.length_cons, Nat.add_assoc, Nat.add_comm 1]
          · rw [linesFrom_of_silent hl, hd']
          · rw [List.cons_append, linesFrom_of_silent hl, hmore]
      | some l =>
          rw [linesFrom_of_spoken hl] at h
          cases hline : d.line l with
          | error f =>
              rw [hline] at h
              cases h
              refine ⟨[], cs, css, f, rfl, rfl, ⟨d, rfl⟩, fun more => ?_⟩
              rw [List.nil_append, linesFrom_of_spoken hl, hline]
          | ok e' =>
              rw [hline] at h
              dsimp only at h
              split at h
              case isTrue => cases h
              case isFalse hpart =>
                obtain ⟨pre, ds, rest, f, rfl, rfl, ⟨d', hd'⟩, hmore⟩ := ih h
                refine ⟨cs :: pre, ds, rest, f, rfl, ?_, ⟨d', ?_⟩, fun more => ?_⟩
                · rw [List.length_cons, Nat.add_assoc, Nat.add_comm 1]
                · rw [linesFrom_of_spoken hl, hline]
                  exact (if_neg hpart).trans hd'
                · rw [List.cons_append, linesFrom_of_spoken hl, hline]
                  exact (if_neg hpart).trans (hmore more)

theorem toProgram_ne_atLine (d : Reading) (n : Nat) (f : Fault) : d.toProgram ≠ .error (.atLine n f) := by
  intro h
  rw [toProgram] at h
  split at h
  · cases h
  · cases h

end Reading

theorem read_eq_of_endsText {s t : String} {cs : List Char} {pre rest more : List (List Char)}
    (h : EndsText cs) (hs : Text.lines s = pre ++ cs :: rest) (ht : Text.lines t = pre ++ cs :: more) :
    read t = read s := by
  rw [Reading.read_eq, Reading.read_eq, hs, ht, Reading.linesFrom_end h]

theorem exists_of_read_eq_error {s : String} {n : Nat} {f : Fault} (h : read s = .error (.atLine n f)) :
    ∃ pre cs rest, Text.lines s = pre ++ cs :: rest ∧ n = pre.length + 1 ∧
      (∀ t m g, Text.lines t = pre → read t ≠ .error (.atLine m g)) ∧
      ∀ t more, Text.lines t = pre ++ cs :: more → read t = read s := by
  cases hread : Reading.linesFrom {} (Text.lines s) 1 with
  | ok d =>
      rw [Reading.read_eq, hread] at h
      exact absurd h (Reading.toProgram_ne_atLine d n f)
  | error e =>
      have he := h
      rw [Reading.read_eq, hread] at he
      cases he
      obtain ⟨pre, cs, rest, g, hlines, hg, ⟨d, hd⟩, hmore⟩ := Reading.linesFrom_eq_error hread
      cases hg
      refine ⟨pre, cs, rest, hlines, Nat.add_comm _ _, fun t m g ht => ?_, fun t more ht => ?_⟩
      · rw [Reading.read_eq, ht, hd]
        exact Reading.toProgram_ne_atLine d m g
      · rw [h, Reading.read_eq, ht, hmore]
        rfl

/-- The reader's answer is that of the lines' words and indentation. Nothing after the end header and
nothing after the line at fault has a part in it. -/
theorem read_by_layout (s : String) :
    (∀ t, SameLayout s t → Alike (spoken s) (spoken t) (read s) (read t)) ∧
    (∀ pre cs rest, Text.lines s = pre ++ cs :: rest → EndsText cs →
      ∀ t more, Text.lines t = pre ++ cs :: more → read t = read s) ∧
    ∀ n f, read s = .error (.atLine n f) →
      ∃ pre cs rest, Text.lines s = pre ++ cs :: rest ∧ n = pre.length + 1 ∧
        (∀ t m g, Text.lines t = pre → read t ≠ .error (.atLine m g)) ∧
        ∀ t more, Text.lines t = pre ++ cs :: more → read t = read s :=
  ⟨fun _ => alike_of_sameLayout, fun _ _ _ hs h _ _ => read_eq_of_endsText h hs,
    fun _ _ => exists_of_read_eq_error⟩

theorem read_by_layout_spread :
    read "ROWS\n N z\nTAIL" = .error (.atLine 3 (.unexpectedSection "TAIL")) ∧
    read "* a star\n\nROWS\r\n  N\tz \n\n*\nTAIL" = .error (.atLine 7 (.unexpectedSection "TAIL")) ∧
    Alike (spoken "ROWS\n N z\nTAIL") (spoken "* a star\n\nROWS\r\n  N\tz \n\n*\nTAIL")
      (read "ROWS\n N z\nTAIL") (read "* a star\n\nROWS\r\n  N\tz \n\n*\nTAIL") := by
  have hsame : SameLayout "ROWS\n N z\nTAIL" "* a star\n\nROWS\r\n  N\tz \n\n*\nTAIL" := by
    rw [SameLayout]
    decide +kernel
  exact ⟨by rfl, by rfl, (read_by_layout _).1 _ hsame⟩

end LinOpt.Mps
