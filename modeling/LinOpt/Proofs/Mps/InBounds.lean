import LinOpt.Proofs.Mps.Exact
import LinOpt.Proofs.Mps.Given
import LinOpt.Proofs.Program.InRange

namespace LinOpt.Mps

namespace Tables

theorem exact_start : Exact {} {} where
  reading := rfl
  rows := by simp [Indexes]
  columns := by simp [Indexes]

theorem sound_linesFrom (css : List (List Char)) (n : Nat) {d : Reading}
    (h : Reading.linesFrom {} css n = .ok d) : d.Sound :=
  (Reading.lines_moves Reading.worded_numbered h).sound Reading.sound_start

theorem linesFrom_agree (css : List (List Char)) (n : Nat) :
    Agree (fun t d => Exact t d ∧ d.Sound) (linesFrom {} css n) (Reading.linesFrom {} css n) := by
  have hwords := @Reading.worded_numbered css n
  refine (lines_agree exact_start fun l hl => (hwords l hl).1).imp fun t d hd h => ?_
  exact ⟨h, sound_linesFrom css n hd⟩

theorem readIn_eq (text : String) : readIn text = some (read text) := by
  apply Agree.eq_some
  refine (linesFrom_agree (Text.lines text) 1).bind fun t d h => ?_
  rw [h.1.reading]
  exact Agree.lift d.toProgram

end Tables

variable {p : Program} {d : Reading}

theorem Reading.Sound.inRange (hd : d.Sound) (h : d.toProgram = .ok p) : p.InRange := by
  obtain ⟨-, rfl⟩ := toProgram_eq_ok h
  refine ⟨fun r hr => ?_, hd.objective_below⟩
  obtain ⟨o, ho, rfl⟩ := List.mem_map.mp hr
  exact hd.terms_below o ho

theorem allowNames_ok {taken names : List String} (hword : ∀ name ∈ names, Text.isWord name = true)
    (hnodup : names.Nodup) (hnew : ∀ name ∈ names, name ∉ taken) : allowNames taken names = .ok () := by
  induction names generalizing taken with
  | nil => rfl
  | cons name names ih =>
      obtain ⟨hname, hwords⟩ := List.forall_mem_cons.mp hword
      obtain ⟨htaken, hnews⟩ := List.forall_mem_cons.mp hnew
      obtain ⟨hmem, hnodup⟩ := List.nodup_cons.mp hnodup
      rw [allowNames, if_neg (by simp [hname]), if_neg (by simpa using htaken)]
      refine ih hwords hnodup fun other hother h => ?_
      rcases List.mem_cons.mp h with rfl | h
      · exact hmem hother
      · exact hnews other hother h

theorem write_of_sound (hd : d.Sound) (h : d.toProgram = .ok p) :
    (∃ e, write p = .error e) ↔ ∃ r ∈ p.rows, r.name = objectiveName := by
  have hcolumns : allowNames [] (p.columns.map (·.name)) = .ok () := by
    obtain ⟨-, rfl⟩ := Reading.toProgram_eq_ok h
    exact allowNames_ok hd.column_words hd.columns_nodup fun _ _ => List.not_mem_nil
  have hrows : allowNames [] (p.rows.map (·.name)) = .ok () := by
    obtain ⟨-, rfl⟩ := Reading.toProgram_eq_ok h
    rw [Reading.names_close]
    exact allowNames_ok hd.row_words hd.rows_nodup fun _ _ => List.not_mem_nil
  have htitle : Text.isWord (title p) = true := by
    obtain ⟨-, rfl⟩ := Reading.toProgram_eq_ok h
    rw [title]
    split
    case isTrue => decide
    case isFalse => exact hd.name_word
  have hobj : p.rows.any (·.name == objectiveName) = true ↔ ∃ r ∈ p.rows, r.name = objectiveName := by
    simp
  rw [← hobj, write, check, hcolumns, hrows]
  cases p.rows.any (·.name == objectiveName) with
  | true => exact iff_of_true ⟨_, rfl⟩ rfl
  | false =>
      refine iff_of_false (fun ⟨e, he⟩ => ?_) Bool.false_ne_true
      rw [htitle] at he
      cases he

/-- After every line of every text that has been read without a fault, the tables give the positions
of the names and the reading is sound, and no access was out of bounds on the way. A linear program
that comes out can be used without one, too, and written unless a row has the objective's name. -/
theorem read_inBounds (text : String) :
    (∀ css, css <+: Text.lines text →
      Agree (fun t d => Exact t d ∧ d.Sound) (Tables.linesFrom {} css 1)
        (Reading.linesFrom {} css 1)) ∧
    readIn text = some (read text) ∧
    ∀ p, read text = .ok p →
      p.costsIn = some p.costs ∧
      columnTableIn p = some ((List.range p.columns.length).map (columnEntries p)) ∧
      Search.Problem.ofProgramIn p = some (Search.Problem.ofProgram p) ∧
      ((∃ e, write p = .error e) ↔ ∃ r ∈ p.rows, r.name = objectiveName) := by
  refine ⟨fun css _ => Tables.linesFrom_agree css 1, Tables.readIn_eq text, fun p h => ?_⟩
  obtain ⟨d, hlines, hprogram⟩ := read_eq_ok h
  have hsound := Tables.sound_linesFrom (Text.lines text) 1 hlines
  have hrange := hsound.inRange hprogram
  exact ⟨p.costsIn_eq hrange, columnTableIn_eq hrange, Search.ofProgramIn_eq hrange,
    write_of_sound hsound hprogram⟩

end LinOpt.Mps
