import LinOpt.Mps.Reader
import LinOpt.Proofs.Checked
import Mathlib.Logic.Function.Basic

namespace LinOpt.Mps

def wordsFrom (start : Nat) (ws : List String) : Option (List String) :=
  if start ≤ ws.length then some (ws.drop start) else none

/-- Two words at a time; a last word without a partner stands alone. -/
def chunks : List String → List (List String)
  | a :: b :: rest => [a, b] :: chunks rest
  | [a] => [[a]]
  | [] => []

/-- Rows and columns are found through tables that hold the positions of their names. -/
structure Tables where
  reading : Reading := {}
  rowAt : String → Option Nat := fun _ => none
  columnAt : String → Option Nat := fun _ => none

namespace Tables

def pushRow (t : Tables) (name : String) (kind : RowKind) : Tables :=
  { t with
    reading := t.reading.addRow name kind
    rowAt := Function.update t.rowAt name (some t.reading.rows.length) }

def rowRecord (t : Tables) (ws : List String) : Checked Fault Tables :=
  match ws with
  | kind :: name :: _ =>
    if t.reading.isObjective name || (t.rowAt name).isSome then throw (.duplicateRow name)
    else
      match Text.upper kind with
      | "N" =>
        if t.reading.objectiveRow.isNone then
          return { t with reading := { t.reading with objectiveRow := some name } }
        else return t.pushRow name .free
      | "L" => return t.pushRow name .less
      | "G" => return t.pushRow name .greater
      | "E" => return t.pushRow name .equal
      | other => throw (.unknownRowType other)
  | _ => throw (.missingField .rows)

def row (t : Tables) (name : String) : Except Fault Nat :=
  match t.rowAt name with
  | some i => .ok i
  | none => .error (.unknownRow name)

def changeRow (t : Tables) (name : String) (f : OpenRow → OpenRow) : Checked Fault Tables := do
  let i ← t.row name
  let rows ← access (modifyAt f i t.reading.rows)
  return { t with reading := { t.reading with rows } }

def openColumn (t : Tables) (name : String) : Tables × Nat :=
  match t.columnAt name with
  | some i => (t, i)
  | none =>
    let n := t.reading.columns.length
    let kind := if t.reading.integral then .integer else .continuous
    let columns := t.reading.columns ++ [⟨name, .zero, .infinity, kind⟩]
    ({ t with
        reading := { t.reading with columns }
        columnAt := Function.update t.columnAt name (some n) }, n)

def columnEntry (column : Nat) (t : Tables) (pair : List String) : Checked Fault Tables := do
  let x ← toNumber (← access pair[1]?)
  if t.reading.isObjective (← access pair[0]?) then
    return { t with
      reading := { t.reading with objective := t.reading.objective ++ [(column, x)] } }
  else
    t.changeRow (← access pair[0]?) fun r => { r with terms := r.terms ++ [(column, x)] }

/-- The second word is only looked at if there are three. -/
def isMarker (ws : List String) : Option Bool :=
  if 3 ≤ ws.length then ws[1]?.map (· == "'MARKER'") else some false

def columnRecord (t : Tables) (ws : List String) : Checked Fault Tables := do
  if ← access (isMarker ws) then
    let word ← access ws[2]?
    return { t with reading := t.reading.marker word }
  else if ws.length < 3 ∨ ws.length % 2 = 0 then throw (.missingField .columns)
  else
    let name ← access ws[0]?
    let rest ← access (wordsFrom 1 ws)
    let (t, column) := t.openColumn name
    (chunks rest).foldlM (columnEntry column) t

def setFields (part : Section) (ws : List String) : Checked Fault (List String) := do
  let fields ← access (if ws.length % 2 = 1 then wordsFrom 1 ws else some ws)
  if fields.isEmpty then throw (.missingField part) else return fields

def rhsEntry (t : Tables) (pair : List String) : Checked Fault Tables := do
  let x ← toNumber (← access pair[1]?)
  if t.reading.isObjective (← access pair[0]?) then
    return { t with reading := { t.reading with offset := -x } }
  else
    t.changeRow (← access pair[0]?) fun r => { r with rhs := x }

def rhsRecord (t : Tables) (ws : List String) : Checked Fault Tables := do
  (chunks (← setFields .rhs ws)).foldlM rhsEntry t

def rangeEntry (t : Tables) (pair : List String) : Checked Fault Tables := do
  let x ← toNumber (← access pair[1]?)
  t.changeRow (← access pair[0]?) fun r => { r with range := some x }

def rangeRecord (t : Tables) (ws : List String) : Checked Fault Tables := do
  (chunks (← setFields .ranges ws)).foldlM rangeEntry t

def boundTarget (t : Tables) (kind : String) (ws : List String) :
    Checked Fault (String × Double) :=
  if Reading.hasValue kind then
    if ws.length < 3 then throw (.missingField .bounds)
    else do
      let name ← access ws[ws.length - 2]?
      let x ← toNumber (← access ws[ws.length - 1]?)
      return (name, x)
  else
    match ws with
    | _ :: first :: rest =>
      match rest.head? with
      | some second => return (if (t.columnAt second).isSome then second else first, .zero)
      | none => return (first, .zero)
    | _ => throw (.missingField .bounds)

def column (t : Tables) (name : String) : Except Fault Nat :=
  match t.columnAt name with
  | some i => .ok i
  | none => .error (.unknownColumn name)

def changeColumn (t : Tables) (name : String) (f : Column → Except Fault Column) :
    Checked Fault Tables := do
  let i ← t.column name
  let c ← f (← access t.reading.columns[i]?)
  return { t with reading := { t.reading with columns := t.reading.columns.set i c } }

def boundRecord (t : Tables) (ws : List String) : Checked Fault Tables :=
  match ws.head? with
  | none => throw (.missingField .bounds)
  | some word => do
    let kind := Text.upper word
    let (name, x) ← t.boundTarget kind ws
    t.changeColumn name (Reading.setBound kind x)

def record (t : Tables) (ws : List String) : Checked Fault Tables :=
  match t.reading.part with
  | .rows => t.rowRecord ws
  | .columns => t.columnRecord ws
  | .rhs => t.rhsRecord ws
  | .ranges => t.rangeRecord ws
  | .bounds => t.boundRecord ws
  | .sense => do
    let word ← access ws[0]?
    return { t with reading := t.reading.sense word }
  | .start | .ended => do
    let word ← access ws[0]?
    throw (.unexpectedSection word)

def header (t : Tables) (ws : List String) : Checked Fault Tables := do
  let word ← access ws[0]?
  let reading ← t.reading.header word ws.tail
  return { t with reading }

def line (t : Tables) (l : Line) : Checked Fault Tables :=
  if l.indented then t.record l.words else t.header l.words

def lines (t : Tables) : List (Nat × Line) → Checked Error Tables
  | [] => return t
  | (n, l) :: rest => do
    let t ← (t.line l).adapt (.atLine n)
    if t.reading.part = .ended then return t else t.lines rest

def linesFrom (t : Tables) (css : List (List Char)) (n : Nat) : Checked Error Tables :=
  t.lines ((css.zipIdx n).filterMap fun c => (Line.ofChars? c.1).map (c.2, ·))

end Tables

def readIn (text : String) : Checked Error Program := do
  let t ← Tables.lines {} (Line.numbered text)
  t.reading.toProgram

end LinOpt.Mps
