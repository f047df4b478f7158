import LinOpt.Mps.Reader

namespace LinOpt.Mps

/-- The words of an indented line, with the part that the line stands in. -/
structure Record where
  part : Section
  words : List String

def headerPart? (word : String) : Option Section :=
  [Section.start, .sense, .rows, .columns, .rhs, .ranges, .bounds, .ended].find?
    (·.header == Text.upper word)

def records (part : Section) : List Line → List Record
  | [] => []
  | l :: ls =>
    if l.indented then ⟨part, l.words⟩ :: records part ls
    else
      match l.words.head?.bind headerPart? with
      | some .ended => []
      | some next => records next ls
      | none => records part ls

def recordsOf (text : String) : List Record :=
  records .start ((Line.numbered text).map (·.2))

/-- A number, as a word, for a row and a column. -/
structure Entry where
  column : String
  row : String
  number : String

/-- What records give, each list in the order of the text. A declaration is the kind of a row with
its name; right-hand sides and ranges are numbers for rows. -/
structure Content where
  declarations : List (String × String) := []
  columns : List String := []
  entries : List Entry := []
  rhs : List (String × String) := []
  ranges : List (String × String) := []

namespace Content

def append (a b : Content) : Content where
  declarations := a.declarations ++ b.declarations
  columns := a.columns ++ b.columns
  entries := a.entries ++ b.entries
  rhs := a.rhs ++ b.rhs
  ranges := a.ranges ++ b.ranges

instance : Append Content := ⟨append⟩

section

variable (a b c : Content)

@[simp] theorem entries_append : (a ++ b).entries = a.entries ++ b.entries := rfl

theorem append_nil : a ++ {} = a := by
  show append a {} = a
  simp [append]

theorem append_assoc : a ++ b ++ c = a ++ (b ++ c) := by
  show append (append a b) c = append a (append b c)
  simp [append]

theorem append_declarations (ds : List (String × String)) :
    a ++ { declarations := ds } = { a with declarations := a.declarations ++ ds } := by
  show append a _ = _
  simp [append]

theorem append_columns (names : List String) :
    a ++ { columns := names } = { a with columns := a.columns ++ names } := by
  show append a _ = _
  simp [append]

theorem append_entries (es : List Entry) :
    a ++ { entries := es } = { a with entries := a.entries ++ es } := by
  show append a _ = _
  simp [append]

theorem append_rhs (ps : List (String × String)) :
    a ++ { rhs := ps } = { a with rhs := a.rhs ++ ps } := by
  show append a _ = _
  simp [append]

theorem append_ranges (ps : List (String × String)) :
    a ++ { ranges := ps } = { a with ranges := a.ranges ++ ps } := by
  show append a _ = _
  simp [append]

end

def isFree (declaration : String × String) : Bool := Text.upper declaration.1 == "N"

def objectiveRow (c : Content) : Option String := (c.declarations.find? isFree).map (·.2)

def rows (c : Content) : List (String × String) := c.declarations.eraseP isFree

def entriesFor (c : Content) (row : String) : List Entry := c.entries.filter (·.row == row)

end Content

def lastNumber (ps : List (String × String)) (row : String) : Option Double :=
  (ps.filter (·.1 == row)).getLast?.bind fun p => Double.parse? p.2

def rowKind? (letter : String) : Option RowKind :=
  match Text.upper letter with
  | "N" => some .free
  | "L" => some .less
  | "G" => some .greater
  | "E" => some .equal
  | _ => none

namespace Record

def rowContent : List String → Content
  | kind :: name :: _ => { declarations := [(kind, name)] }
  | _ => {}

/-- A marker between columns gives nothing. -/
def columnContent : List String → Content
  | [] => {}
  | column :: rest =>
    if rest.head? = some "'MARKER'" then {}
    else { columns := [column], entries := (pairs rest).map fun p => ⟨column, p.1, p.2⟩ }

/-- The words after the name of a set, which there is if the number of words is odd. -/
def afterSet (ws : List String) : List String := if ws.length % 2 = 1 then ws.tail else ws

def content (r : Record) : Content :=
  match r.part with
  | .rows => rowContent r.words
  | .columns => columnContent r.words
  | .rhs => { rhs := pairs (afterSet r.words) }
  | .ranges => { ranges := pairs (afterSet r.words) }
  | .start | .sense | .bounds | .ended => {}

end Record

def contentOf (rs : List Record) : Content := rs.foldr (·.content ++ ·) {}

theorem contentOf_cons (r : Record) (rs : List Record) :
    contentOf (r :: rs) = r.content ++ contentOf rs := rfl

theorem contentOf_append (rs ss : List Record) : contentOf (rs ++ ss) = contentOf rs ++ contentOf ss := by
  induction rs with
  | nil => rfl
  | cons r rs ih =>
      rw [List.cons_append, contentOf_cons, ih, contentOf_cons, Content.append_assoc]

theorem contentOf_concat (rs : List Record) (r : Record) :
    contentOf (rs ++ [r]) = contentOf rs ++ r.content := by
  rw [contentOf_append, ← Content.append_nil r.content]
  rfl

end LinOpt.Mps
