import LinOpt.Proofs.Mps.Moves
import Mathlib.Data.List.Nodup

namespace LinOpt.Mps.Reading

def TermsBelow (n : Nat) (ts : List (Nat × Double)) : Prop := ∀ t ∈ ts, t.1 < n

theorem TermsBelow.mono {m n : Nat} {ts : List (Nat × Double)} (h : TermsBelow m ts) (hmn : m ≤ n) :
    TermsBelow n ts := fun t ht => Nat.lt_of_lt_of_le (h t ht) hmn

theorem TermsBelow.snoc {n j : Nat} {ts : List (Nat × Double)} (h : TermsBelow n ts) (hj : j < n)
    (x : Double) : TermsBelow n (ts ++ [(j, x)]) := by
  intro t ht
  rcases List.mem_append.mp ht with ht | ht
  · exact h t ht
  · rw [List.mem_singleton.mp ht]
    exact hj

structure Sound (d : Reading) : Prop where
  name_word : Text.isWord d.name = true
  row_words : ∀ name ∈ d.rows.map (·.name), Text.isWord name = true
  column_words : ∀ name ∈ d.columns.map (·.name), Text.isWord name = true
  rows_nodup : (d.rows.map (·.name)).Nodup
  columns_nodup : (d.columns.map (·.name)).Nodup
  objective_fresh : ∀ name, d.objectiveRow = some name → name ∉ d.rows.map (·.name)
  terms_below : ∀ r ∈ d.rows, TermsBelow d.columns.length r.terms
  objective_below : TermsBelow d.columns.length d.objective

variable {d e : Reading} {a : Content} {name : String}

theorem names_withRow {f : OpenRow → OpenRow} (hf : ∀ r, (f r).name = r.name) (d : Reading)
    (name : String) : (d.withRow name f).rows.map (·.name) = d.rows.map (·.name) := by
  refine names_map (fun r => ?_) d.rows
  split
  · exact hf r
  · rfl

theorem mem_withRow {f : OpenRow → OpenRow} {r : OpenRow} (h : r ∈ (d.withRow name f).rows) :
    ∃ r' ∈ d.rows, r = f r' ∨ r = r' := by
  obtain ⟨r', hr', rfl⟩ := List.mem_map.mp h
  refine ⟨r', hr', ?_⟩
  split
  · exact .inl rfl
  · exact .inr rfl

theorem column?_lt {j : Nat} (h : d.column? name = some j) : j < d.columns.length :=
  (List.findIdx?_eq_some_iff_findIdx_eq.mp h).1

theorem openColumn_columns (d : Reading) (name : String) :
    name ∈ d.columns.map (·.name) ∧ d.openColumn name = (d, (d.openColumn name).2) ∨
      name ∉ d.columns.map (·.name) ∧
        ∃ c : Column, c.name = name ∧ (d.openColumn name).1 = { d with columns := d.columns ++ [c] } := by
  by_cases hname : name ∈ d.columns.map (·.name)
  · refine .inl ⟨hname, ?_⟩
    cases h : d.column? name with
    | some j => rw [openColumn_of_eq_some h]
    | none =>
        obtain ⟨c, hc, hcn⟩ := List.mem_map.mp hname
        rw [column?, List.findIdx?_eq_none_iff] at h
        exact absurd hcn (beq_eq_false_iff_ne.mp (h c hc))
  · refine .inr ⟨hname, ⟨name, .zero, .infinity, if d.integral then .integer else .continuous⟩, rfl, ?_⟩
    rw [openColumn_of_fresh hname]

namespace Sound

theorem addRow {kind : RowKind} (hd : Sound d) (hobj : d.objectiveRow ≠ some name)
    (hfresh : name ∉ d.rows.map (·.name)) (hword : Text.isWord name = true) :
    Sound (d.addRow name kind) := by
  have hnames : (d.addRow name kind).rows.map (·.name) = d.rows.map (·.name) ++ [name] :=
    List.map_append
  refine { hd with row_words := ?_, rows_nodup := ?_, objective_fresh := ?_, terms_below := ?_ }
  · rw [hnames, List.forall_mem_append]
    exact ⟨hd.row_words, List.forall_mem_singleton.mpr hword⟩
  · rw [hnames, ← List.concat_eq_append]
    exact .concat hfresh hd.rows_nodup
  · intro other hother
    rw [hnames, List.mem_append, List.mem_singleton, not_or]
    refine ⟨hd.objective_fresh other hother, ?_⟩
    rintro rfl
    exact hobj hother
  · intro r hr
    rcases List.mem_append.mp hr with hr | hr
    · exact hd.terms_below r hr
    · rw [List.mem_singleton.mp hr]
      exact List.forall_mem_nil _

theorem openColumn (hd : Sound d) (hword : Text.isWord name = true) :
    Sound (d.openColumn name).1 := by
  rcases openColumn_columns d name with ⟨-, hsame⟩ | ⟨hfresh, c, hc, hnew⟩
  · rw [hsame]
    exact hd
  · rw [hnew]
    have hnames : (d.columns ++ [c]).map (·.name) = d.columns.map (·.name) ++ [name] := by
      rw [List.map_append, ← hc]
      rfl
    have hle : d.columns.length ≤ (d.columns ++ [c]).length := by simp
    refine { hd with
      column_words := ?_
      columns_nodup := ?_
      terms_below := fun r hr => (hd.terms_below r hr).mono hle
      objective_below := hd.objective_below.mono hle }
    · rw [hnames, List.forall_mem_append]
      exact ⟨hd.column_words, List.forall_mem_singleton.mpr hword⟩
    · rw [hnames, ← List.concat_eq_append]
      exact .concat hfresh hd.columns_nodup

theorem withRow {f : OpenRow → OpenRow} (hd : Sound d) (hname : ∀ r, (f r).name = r.name)
    (hterms : ∀ r, TermsBelow d.columns.length r.terms → TermsBelow d.columns.length (f r).terms) :
    Sound (d.withRow name f) := by
  have hnames := names_withRow hname d name
  refine { hd with row_words := ?_, rows_nodup := ?_, objective_fresh := ?_, terms_below := ?_ }
  · rw [hnames]
    exact hd.row_words
  · rw [hnames]
    exact hd.rows_nodup
  · rw [hnames]
    exact hd.objective_fresh
  · intro r hr
    obtain ⟨r', hr', rfl | rfl⟩ := mem_withRow hr
    · exact hterms r' (hd.terms_below r' hr')
    · exact hd.terms_below r hr'

end Sound

theorem Move.sound (h : Move d a e) (hd : Sound d) : Sound e := by
  cases h with
  | frame part maximize integral hname =>
      refine { hd with name_word := ?_ }
      rcases hname with rfl | hname
      · exact hd.name_word
      · exact hname
  | objective hnone hkind hfresh =>
      refine { hd with objective_fresh := ?_ }
      rintro other ⟨⟩
      exact hfresh
  | row hkind hsome hobj hfresh hword => exact hd.addRow hobj hfresh hword
  | column hword => exact hd.openColumn hword
  | cost hcolumn hx hobj =>
      exact { hd with objective_below := hd.objective_below.snoc (column?_lt hcolumn) _ }
  | term hcolumn hx hobj hrow =>
      exact hd.withRow (fun _ => rfl) fun r hr => hr.snoc (column?_lt hcolumn) _
  | offset hx hobj => exact { hd with }
  | rhs hx hobj hrow => exact hd.withRow (fun _ => rfl) fun r hr => hr
  | range hx hrow => exact hd.withRow (fun _ => rfl) fun r hr => hr
  | bounds hnames =>
      have hlength := congrArg List.length hnames
      rw [List.length_map, List.length_map] at hlength
      refine { hd with column_words := ?_, columns_nodup := ?_, terms_below := ?_, objective_below := ?_ }
      · rw [hnames]
        exact hd.column_words
      · rw [hnames]
        exact hd.columns_nodup
      · rw [hlength]
        exact hd.terms_below
      · rw [hlength]
        exact hd.objective_below

theorem Moves.sound (h : Moves d a e) (hd : Sound d) : Sound e :=
  h.preserves (P := fun _ d => Sound d) (fun hd hmove => hmove.sound hd) (c := {}) hd

theorem sound_start : Sound {} where
  name_word := by decide
  row_words := List.forall_mem_nil _
  column_words := List.forall_mem_nil _
  rows_nodup := .nil
  columns_nodup := .nil
  objective_fresh := nofun
  terms_below := List.forall_mem_nil _
  objective_below := List.forall_mem_nil _

end LinOpt.Mps.Reading
