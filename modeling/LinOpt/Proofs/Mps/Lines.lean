import LinOpt.Mps.Reader
import LinOpt.Mps.Writer
import LinOpt.Proofs.Double.Text

namespace LinOpt.Mps

def Spells (cs : List Char) (ws : List String) : Prop := '\n' ∉ cs ∧ Text.words cs = ws

def Reads (s : String) (l : Line) : Prop := '\n' ∉ s.toList ∧ Line.ofChars? s.toList = some l

section

variable {cs : List Char} {ws : List String} {w : String}

theorem spells_word (hw : Text.isWord w = true) : Spells w.toList [w] :=
  ⟨Text.not_mem_of_isWord hw (by decide), Text.words_of_isWord hw⟩

theorem Spells.space (h : Spells cs ws) : Spells (' ' :: cs) ws := by
  obtain ⟨hline, hwords⟩ := h
  exact ⟨List.not_mem_cons_of_ne_of_not_mem (by decide) hline,
    (Text.words_cons cs (by decide)).trans hwords⟩

theorem Spells.word (h : Spells cs ws) (hw : Text.isWord w = true) :
    Spells (w.toList ++ ' ' :: cs) (w :: ws) := by
  obtain ⟨hline, hwords⟩ := h.space
  obtain ⟨hline', hwords'⟩ := spells_word hw
  refine ⟨List.not_mem_append hline' hline, ?_⟩
  rw [Text.words_append_cons _ _ (by decide), hwords', ← hwords, Text.words_cons _ (by decide)]
  rfl

theorem Spells.reads {s : String} (h : Spells cs ws) (hs : s.toList = ' ' :: cs) (hne : ws ≠ []) :
    Reads s ⟨true, ws⟩ := by
  obtain ⟨hline, hwords⟩ := h.space
  rw [Reads, hs]
  refine ⟨hline, ?_⟩
  rw [Line.ofChars?, hwords]
  cases ws with
  | nil => exact absurd rfl hne
  | cons w ws => rfl

end

section

variable {a b c name : String}

theorem reads_record (ha : Text.isWord a = true) (hb : Text.isWord b = true)
    (hc : Text.isWord c = true) : Reads (record a b c) ⟨true, [a, b, c]⟩ := by
  refine (((spells_word hc).space.word hb).space.word ha).space.space.space.reads ?_
    (List.cons_ne_nil _ _)
  simp [record]

theorem reads_rowLine {r : Row} (hr : Text.isWord r.name = true) :
    Reads (rowLine r) ⟨true, [rowLetter r, r.name]⟩ := by
  have hletter : Text.isWord (rowLetter r) = true := by
    rw [rowLetter]
    split
    · decide
    · split
      · decide
      · split <;> decide
  refine ((spells_word hr).space.word hletter).reads ?_ (List.cons_ne_nil _ _)
  simp [rowLine]

theorem isWord_bnd : Text.isWord "BND" = true := by decide

theorem reads_boundLine (ha : Text.isWord a = true) (hname : Text.isWord name = true) :
    Reads (boundLine a name) ⟨true, [a, "BND", name]⟩ := by
  refine (((spells_word hname).space.word isWord_bnd).word ha).reads ?_ (List.cons_ne_nil _ _)
  simp [boundLine]

theorem reads_valueLine (ha : Text.isWord a = true) (hname : Text.isWord name = true) (x : Double) :
    Reads (valueLine a name x) ⟨true, [a, "BND", name, x.text]⟩ := by
  refine ((((spells_word x.isWord_text).space.word hname).space.word isWord_bnd).word ha).reads ?_
    (List.cons_ne_nil _ _)
  simp [valueLine, boundLine]

theorem reads_name (hname : Text.isWord name = true) :
    Reads ("NAME " ++ name) ⟨false, ["NAME", name]⟩ := by
  have hword : Text.isWord "NAME" = true := by decide
  obtain ⟨hline, hwords⟩ := (spells_word hname).word hword
  have hs : ("NAME " ++ name).toList = "NAME".toList ++ ' ' :: name.toList := by simp
  rw [Reads, hs]
  refine ⟨hline, ?_⟩
  rw [Line.ofChars?, hwords]
  rfl

theorem reads_header (part : Section) : Reads part.header ⟨false, [part.header]⟩ := by
  cases part <;> exact ⟨by decide, rfl⟩

theorem reads_max : Reads "    MAX" ⟨true, ["MAX"]⟩ := ⟨by decide, rfl⟩

theorem reads_objective : Reads (" N  " ++ objectiveName) ⟨true, ["N", objectiveName]⟩ :=
  ⟨by decide, rfl⟩

end

end LinOpt.Mps
