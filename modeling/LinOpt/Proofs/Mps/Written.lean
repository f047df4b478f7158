import LinOpt.Proofs.Mps.Marked
import Mathlib.Data.List.Induction

namespace LinOpt.Mps

/-- Lines that give these records, if they begin in one part, and that end in another. -/
def Spans (part : Section) (ss : List String) (rs : List Record) (next : Section) : Prop :=
  ∃ ls, List.Forall₂ Reads ss ls ∧ ∀ more, records part (ls ++ more) = rs ++ records next more

section

variable {part mid next : Section} {ss ts : List String} {rs rs' : List Record}

theorem Spans.append (h : Spans part ss rs mid) (h' : Spans mid ts rs' next) :
    Spans part (ss ++ ts) (rs ++ rs') next := by
  obtain ⟨ls, hreads, hls⟩ := h
  obtain ⟨ls', hreads', hls'⟩ := h'
  refine ⟨ls ++ ls', List.rel_append hreads hreads', fun more => ?_⟩
  rw [List.append_assoc, hls, hls', List.append_assoc]

end

section

variable {p : Program}

def rhsEntries (p : Program) : Entries :=
  (if p.offset == .zero then [] else [(objectiveName, -p.offset)]) ++ entriesOf rhsGiven p.rows

def rangeEntries (p : Program) : Entries := entriesOf rangeGiven p.rows

end

def texts (es : Entries) : List (String × String) := es.map fun e => (e.1, e.2.text)

/-- What the text of a program says of rows. -/
structure Written (p : Program) (c : Content) : Prop where
  declarations :
    c.declarations = ("N", objectiveName) :: p.rows.map fun r => (rowLetter r, r.name)
  rhs : c.rhs = texts (rhsEntries p)
  ranges : c.ranges = texts (rangeEntries p)

section

variable {p : Program} {c : Content} {r : Row}

theorem lastNumber_texts {es : Entries} {name : String} {xs : List Double}
    (h : es.filter (·.1 == name) = xs.map (name, ·)) (hxs : ∀ x ∈ xs, x.isNaN = false) :
    lastNumber (texts es) name = xs.getLast? := by
  have htexts : (texts es).filter (·.1 == name) = xs.map fun x => (name, x.text) := by
    rw [texts, List.filter_map, show ((·.1 == name) ∘ fun e : String × Double => (e.1, e.2.text)) =
      (·.1 == name) from rfl, h, List.map_map]
    rfl
  rw [lastNumber, htexts, List.getLast?_map]
  cases hlast : xs.getLast? with
  | none => rfl
  | some x => exact Double.parse?_text (hxs x (List.mem_of_getLast? hlast))

theorem filter_rhsEntries (hnamed : Named p) (hr : r ∈ p.rows) :
    (rhsEntries p).filter (·.1 == r.name) = (rhsGiven r).map (r.name, ·) := by
  have hne : objectiveName ≠ r.name := fun h => hnamed.no_objective (h ▸ List.mem_map_of_mem hr)
  have hoffset : (if p.offset == .zero then [] else [(objectiveName, -p.offset)]).filter
      (·.1 == r.name) = [] := by
    split
    · rfl
    · exact List.filter_cons_of_neg (mt eq_of_beq hne)
  rw [rhsEntries, List.filter_append, hoffset, List.nil_append, filter_entriesOf hnamed.rows_nodup hr]

theorem Written.lastRhs (h : Written p c) (hnamed : Named p) (hr : r ∈ p.rows) :
    lastNumber c.rhs r.name = (rhsGiven r).getLast? := by
  rw [h.rhs]
  exact lastNumber_texts (filter_rhsEntries hnamed hr) isNaN_of_mem_rhsGiven

theorem Written.lastRange (h : Written p c) (hnamed : Named p) (hr : r ∈ p.rows) :
    lastNumber c.ranges r.name = (rangeGiven r).getLast? := by
  rw [h.ranges]
  exact lastNumber_texts (filter_entriesOf hnamed.rows_nodup hr) isNaN_of_mem_rangeGiven

theorem foldl_setRhs (xs : List Double) (o : OpenRow) :
    xs.foldl (fun o x => setRhs x o) o = { o with rhs := xs.getLast?.getD o.rhs } := by
  induction xs using List.reverseRecOn with
  | nil => rfl
  | append_singleton xs x ih =>
      rw [List.foldl_concat, ih, List.getLast?_concat]
      rfl

theorem foldl_setRange (xs : List Double) (o : OpenRow) :
    xs.foldl (fun o x => setRange x o) o = { o with range := xs.getLast?.or o.range } := by
  induction xs using List.reverseRecOn with
  | nil => rfl
  | append_singleton xs x ih =>
      rw [List.foldl_concat, ih, List.getLast?_concat]
      rfl

theorem Written.boundsGiven (h : Written p c) (hnamed : Named p) (hr : r ∈ p.rows) :
    boundsGiven c (rowKind r) r.name = (filled r (declared r)).bounds := by
  rw [filled, foldl_setRhs, foldl_setRange, Mps.boundsGiven, h.lastRhs hnamed hr,
    h.lastRange hnamed hr, declared]
  dsimp only
  rw [Option.or_none]

end

end LinOpt.Mps
