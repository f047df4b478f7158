import LinOpt.Text.Blank

namespace LinOpt.Text

theorem isWord_iff {w : String} :
    isWord w = true ↔ w.toList ≠ [] ∧ ∀ c ∈ w.toList, isBlank c = false := by
  simp [isWord]

theorem not_mem_of_isWord {w : String} (hw : isWord w = true) {c : Char} (hc : isBlank c = true) :
    c ∉ w.toList := by
  intro h
  rw [(isWord_iff.mp hw).2 c h] at hc
  cases hc

theorem words_append_cons (cs ds : List Char) {c : Char} (hc : isBlank c = true) :
    words (cs ++ c :: ds) = words cs ++ words ds := by
  rw [words, List.splitOnP_append_cons _ _ hc, List.filter_append, List.map_append]
  rfl

theorem words_cons (ds : List Char) {c : Char} (hc : isBlank c = true) :
    words (c :: ds) = words ds :=
  words_append_cons [] ds hc

theorem words_of_isWord {w : String} (hw : isWord w = true) : words w.toList = [w] := by
  obtain ⟨hne, hblank⟩ := isWord_iff.mp hw
  rw [words, List.splitOnP_eq_singleton hblank, List.filter_cons_of_pos (by simp [hne])]
  simp

theorem not_of_mem_splitOnP {p : Char → Bool} {cs ds : List Char} (h : ds ∈ cs.splitOnP p) :
    ∀ c ∈ ds, p c = false := by
  induction cs generalizing ds with
  | nil =>
      rw [List.splitOnP_nil, List.mem_singleton] at h
      rw [h]
      exact nofun
  | cons c cs ih =>
      rw [List.splitOnP_cons_eq_if_modifyHead] at h
      obtain ⟨es, ess, hsplit⟩ := List.exists_cons_of_ne_nil (List.splitOnP_ne_nil p cs)
      rw [hsplit] at h ih
      split at h
      case isTrue =>
        rcases List.mem_cons.mp h with rfl | h
        · exact nofun
        · exact ih h
      case isFalse hc =>
        rcases List.mem_cons.mp h with rfl | h
        · exact List.forall_mem_cons.mpr ⟨Bool.eq_false_iff.mpr hc, ih List.mem_cons_self⟩
        · exact ih (List.mem_cons_of_mem es h)

theorem isWord_of_mem_words {cs : List Char} {w : String} (h : w ∈ words cs) : isWord w = true := by
  obtain ⟨ds, hds, rfl⟩ := List.mem_map.mp h
  obtain ⟨hmem, hne⟩ := List.mem_filter.mp hds
  rw [isWord_iff, String.toList_ofList]
  exact ⟨by simpa using hne, not_of_mem_splitOnP hmem⟩

theorem lines_join {ss : List String} (h : ∀ s ∈ ss, '\n' ∉ s.toList) :
    lines (String.join (ss.map (· ++ "\n"))) = ss.map String.toList ++ [[]] := by
  induction ss with
  | nil => rfl
  | cons s ss ih =>
      have hs := h s List.mem_cons_self
      rw [lines] at ih ⊢
      rw [List.map_cons, String.join_cons, String.toList_append, String.toList_append,
        List.append_assoc, show "\n".toList = ['\n'] from rfl, List.singleton_append,
        List.splitOn_append_cons_self_of_not_mem hs,
        ih fun t ht => h t (List.mem_cons_of_mem s ht)]
      rfl

end LinOpt.Text
