import LinOpt.Double.Text
import LinOpt.Mps.Error
import LinOpt.Program.Basic
import LinOpt.Text.Blank

namespace LinOpt.Mps

/-- The name of the objective row, which no other row may have. -/
def objectiveName : String := "OBJ"

def allowNames : List String → List String → Except Error Unit
  | _, [] => .ok ()
  | taken, name :: names =>
    if !Text.isWord name then .error (.invalidName name)
    else if taken.contains name then .error (.duplicateName name)
    else allowNames (name :: taken) names

def title (p : Program) : String := if p.name.isEmpty then "model" else p.name

def check (p : Program) : Except Error Unit := do
  allowNames [] (p.columns.map (·.name))
  allowNames [] (p.rows.map (·.name))
  if p.rows.any (·.name == objectiveName) then throw (.invalidName objectiveName)
  if !Text.isWord (title p) then throw (.invalidName (title p))

def rowLetter (r : Row) : String :=
  if r.lower == r.upper then "E"
  else if r.lower.isFinite then "G"
  else if r.upper.isFinite then "L"
  else "N"

def rowLine (r : Row) : String := " " ++ rowLetter r ++ "  " ++ r.name

def columnEntries (p : Program) (column : Nat) : List (String × Double) :=
  let c := p.cost column
  (if c == .zero then [] else [(objectiveName, c)]) ++
    p.rows.flatMap fun r => (r.terms.filter (·.1 == column)).map fun t => (r.name, t.2)

def record (a b c : String) : String := "    " ++ a ++ "  " ++ b ++ "  " ++ c

def columnLines (name : String) (entries : List (String × Double)) : List String :=
  match entries with
  | [] => [record name objectiveName "0"]
  | _ => entries.map fun e => record name e.1 e.2.text

def marker (k : Nat) (integral : Bool) : String :=
  record ("MARKER" ++ toString k) "'MARKER'" (if integral then "'INTORG'" else "'INTEND'")

/-- The columns part. A marker stands wherever integral and other columns meet, and at the end if
the last column is integral; `k` counts the markers. -/
def columnsPart : Bool → Nat → List (Column × List (String × Double)) → List String
  | inBlock, k, [] => if inBlock then [marker k false] else []
  | inBlock, k, (c, entries) :: rest =>
    let integral := c.kind.isIntegral
    let body := columnLines c.name entries
    if integral = inBlock then body ++ columnsPart inBlock k rest
    else marker k integral :: (body ++ columnsPart integral (k + 1) rest)

/-- The number that stands for a row: the bound it has, the lower one if it has both. -/
def rowRhs (r : Row) : Option Double :=
  if r.lower == r.upper then some r.lower
  else if r.lower.isFinite then some r.lower
  else if r.upper.isFinite then some r.upper
  else none

def rhsLine (name : String) (x : Double) : List String :=
  if x == .zero then [] else [record "RHS" name x.text]

def rhsPart (p : Program) : List String :=
  (if p.offset == .zero then [] else [record "RHS" objectiveName (-p.offset).text]) ++
    p.rows.flatMap fun r => ((rowRhs r).map (rhsLine r.name)).getD []

def rowRange (r : Row) : Option Double :=
  if !(r.lower == r.upper) && r.lower.isFinite && r.upper.isFinite then some (r.upper - r.lower)
  else none

def rangesPart (p : Program) : List String :=
  match p.rows.filterMap fun r => (rowRange r).map (r.name, ·) with
  | [] => []
  | ranges => "RANGES" :: ranges.map fun x => record "RNG" x.1 x.2.text

def boundLine (kind name : String) : String := " " ++ kind ++ " BND  " ++ name

def valueLine (kind name : String) (x : Double) : String :=
  boundLine kind name ++ "  " ++ x.text

def boundLines (c : Column) : List String :=
  if c.kind = .binary && c.lower == .zero && c.upper == .one then [boundLine "BV" c.name]
  else if c.lower == c.upper then [valueLine "FX" c.name c.lower]
  else if !c.lower.isFinite && !c.upper.isFinite then [boundLine "FR" c.name]
  else [if c.lower.isFinite then valueLine "LO" c.name c.lower else boundLine "MI" c.name,
    if c.upper.isFinite then valueLine "UP" c.name c.upper else boundLine "PL" c.name]

def textLines (p : Program) : List String :=
  ["NAME " ++ title p] ++ (if p.maximize then ["OBJSENSE", "    MAX"] else []) ++
    ["ROWS", " N  " ++ objectiveName] ++ p.rows.map rowLine ++
    "COLUMNS" :: columnsPart false 0 (p.columns.zipIdx.map fun (c, j) => (c, columnEntries p j)) ++
    "RHS" :: rhsPart p ++ rangesPart p ++ "BOUNDS" :: p.columns.flatMap boundLines ++ ["ENDATA"]

def write (p : Program) : Except Error String := do
  check p
  return String.join ((textLines p).map (· ++ "\n"))

end LinOpt.Mps
