import LinOpt.Double.Text
import LinOpt.Mps.Error
import LinOpt.Mps.Line
import LinOpt.Mps.OpenRow

namespace LinOpt.Mps

/-- What has been read so far. -/
structure Reading where
  part : Section := .start
  name : String := "model"
  maximize : Bool := false
  objectiveRow : Option String := none
  rows : List OpenRow := []
  columns : List Column := []
  objective : List (Nat × Double) := []
  offset : Double := .zero
  /-- Between the markers of integral columns. -/
  integral : Bool := false

def toNumber (word : String) : Except Fault Double :=
  match Double.parse? word with
  | some x => .ok x
  | none => .error (.invalidNumber word)

def pairs : List String → List (String × String)
  | a :: b :: rest => (a, b) :: pairs rest
  | _ => []

namespace Reading

def inPart (d : Reading) (part : Section) : Reading := { d with part }

def sense (d : Reading) (word : String) : Reading :=
  { d with maximize := ['M', 'A', 'X'].isPrefixOf (Text.upper word).toList }

def header (d : Reading) (word : String) (rest : List String) : Except Fault Reading :=
  match Text.upper word with
  | "NAME" => .ok { d with part := .start, name := rest.head?.getD d.name }
  | "OBJSENSE" => .ok (((rest.head?.map d.sense).getD d).inPart .sense)
  | "ROWS" => .ok (d.inPart .rows)
  | "COLUMNS" => .ok (d.inPart .columns)
  | "RHS" => .ok (d.inPart .rhs)
  | "RANGES" => .ok (d.inPart .ranges)
  | "BOUNDS" => .ok (d.inPart .bounds)
  | "ENDATA" => .ok (d.inPart .ended)
  | other => .error (.unexpectedSection other)

def isObjective (d : Reading) (name : String) : Bool := d.objectiveRow == some name

def hasRow (d : Reading) (name : String) : Bool := d.rows.any (·.name == name)

def addRow (d : Reading) (name : String) (kind : RowKind) : Reading :=
  { d with rows := d.rows ++ [{ name, kind }] }

def changeRow (d : Reading) (name : String) (f : OpenRow → OpenRow) : Except Fault Reading :=
  if d.hasRow name then
    .ok { d with rows := d.rows.map fun r => if r.name == name then f r else r }
  else .error (.unknownRow name)

/-- The first free row is the objective. -/
def rowRecord (d : Reading) : List String → Except Fault Reading
  | kind :: name :: _ =>
    if d.isObjective name || d.hasRow name then .error (.duplicateRow name)
    else
      match Text.upper kind with
      | "N" =>
        .ok (if d.objectiveRow.isNone then { d with objectiveRow := some name }
          else d.addRow name .free)
      | "L" => .ok (d.addRow name .less)
      | "G" => .ok (d.addRow name .greater)
      | "E" => .ok (d.addRow name .equal)
      | other => .error (.unknownRowType other)
  | _ => .error (.missingField .rows)

def column? (d : Reading) (name : String) : Option Nat := d.columns.findIdx? (·.name == name)

/-- A column is made by its first entry, with the default bounds. -/
def openColumn (d : Reading) (name : String) : Reading × Nat :=
  match d.column? name with
  | some i => (d, i)
  | none =>
    let kind := if d.integral then .integer else .continuous
    ({ d with columns := d.columns ++ [⟨name, .zero, .infinity, kind⟩] }, d.columns.length)

def columnEntry (column : Nat) (d : Reading) (entry : String × String) : Except Fault Reading := do
  let x ← toNumber entry.2
  if d.isObjective entry.1 then return { d with objective := d.objective ++ [(column, x)] }
  else d.changeRow entry.1 fun r => { r with terms := r.terms ++ [(column, x)] }

def marker (d : Reading) (word : String) : Reading :=
  if word = "'INTORG'" then { d with integral := true }
  else if word = "'INTEND'" then { d with integral := false }
  else d

def columnRecord (d : Reading) (ws : List String) : Except Fault Reading :=
  match ws with
  | name :: second :: third :: _ =>
    if second = "'MARKER'" then .ok (d.marker third)
    else if ws.length % 2 = 0 then .error (.missingField .columns)
    else
      let (d, i) := d.openColumn name
      (pairs ws.tail).foldlM (columnEntry i) d
  | _ => .error (.missingField .columns)

def setEntries (part : Section) (ws : List String) : Except Fault (List (String × String)) :=
  match pairs (if ws.length % 2 = 1 then ws.tail else ws) with
  | [] => .error (.missingField part)
  | ps => .ok ps

/-- On the objective row, a right-hand side is minus the offset. -/
def rhsEntry (d : Reading) (entry : String × String) : Except Fault Reading := do
  let x ← toNumber entry.2
  if d.isObjective entry.1 then return { d with offset := -x }
  else d.changeRow entry.1 fun r => { r with rhs := x }

def rhsRecord (d : Reading) (ws : List String) : Except Fault Reading := do
  (← setEntries .rhs ws).foldlM rhsEntry d

def rangeEntry (d : Reading) (entry : String × String) : Except Fault Reading := do
  let x ← toNumber entry.2
  d.changeRow entry.1 fun r => { r with range := some x }

def rangeRecord (d : Reading) (ws : List String) : Except Fault Reading := do
  (← setEntries .ranges ws).foldlM rangeEntry d

/-- A negative upper bound takes away a lower bound of zero. -/
def setUpper (c : Column) (x : Double) : Column :=
  { c with
    lower := if x.numLt .zero && c.lower == .zero then .negInfinity else c.lower
    upper := x }

def setBound (kind : String) (x : Double) (c : Column) : Except Fault Column :=
  match kind with
  | "UP" => .ok (setUpper c x)
  | "LO" => .ok { c with lower := x }
  | "FX" => .ok { c with lower := x, upper := x }
  | "LI" => .ok { c with lower := x, kind := .integer }
  | "UI" => .ok { setUpper c x with kind := .integer }
  | "FR" => .ok { c with lower := .negInfinity, upper := .infinity }
  | "MI" => .ok { c with lower := .negInfinity }
  | "PL" => .ok { c with upper := .infinity }
  | "BV" => .ok { c with lower := .zero, upper := .one, kind := .binary }
  | other => .error (.unknownBoundType other)

def hasValue (kind : String) : Bool := ["UP", "LO", "FX", "LI", "UI"].contains kind

/-- The column that a bound record names, and its value. With a value they are the last two words.
Without one the column comes second or, after the name of a set, third. -/
def boundTarget (d : Reading) (kind : String) (rest : List String) :
    Except Fault (String × Double) :=
  if hasValue kind then
    match rest.reverse with
    | value :: column :: _ => (toNumber value).map (column, ·)
    | _ => .error (.missingField .bounds)
  else
    match rest with
    | first :: second :: _ =>
      .ok (if (d.column? second).isSome then second else first, .zero)
    | [first] => .ok (first, .zero)
    | [] => .error (.missingField .bounds)

def changeColumn (d : Reading) (name : String) (f : Column → Except Fault Column) :
    Except Fault Reading := do
  if d.columns.any (·.name == name) then
    return { d with columns := ← d.columns.mapM fun c => if c.name == name then f c else .ok c }
  else throw (.unknownColumn name)

def boundRecord (d : Reading) (kind : String) (rest : List String) : Except Fault Reading := do
  let (name, x) ← d.boundTarget kind rest
  d.changeColumn name (setBound kind x)

def record (d : Reading) (word : String) (rest : List String) : Except Fault Reading :=
  match d.part with
  | .rows => d.rowRecord (word :: rest)
  | .columns => d.columnRecord (word :: rest)
  | .rhs => d.rhsRecord (word :: rest)
  | .ranges => d.rangeRecord (word :: rest)
  | .bounds => d.boundRecord (Text.upper word) rest
  | .sense => .ok (d.sense word)
  | .start | .ended => .error (.unexpectedSection word)

def line (d : Reading) (l : Line) : Except Fault Reading :=
  match l.words with
  | [] => .ok d
  | word :: rest => if l.indented then d.record word rest else d.header word rest

def lines (d : Reading) : List (Nat × Line) → Except Error Reading
  | [] => .ok d
  | (n, l) :: rest =>
    match d.line l with
    | .error fault => .error (.atLine n fault)
    | .ok d => if d.part = .ended then .ok d else d.lines rest

def toProgram (d : Reading) : Except Error Program :=
  if d.objectiveRow.isNone then .error .missingObjectiveRow
  else .ok ⟨d.name, d.columns, d.rows.map (·.close), d.objective, d.offset, d.maximize⟩

end Reading

def read (text : String) : Except Error Program := do
  (← Reading.lines {} (Line.numbered text)).toProgram

end LinOpt.Mps
