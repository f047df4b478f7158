namespace LinOpt.Mps

/-- The parts of the text. Before the rows there are the name and the sense of the objective; after
`ended` nothing is read. -/
inductive Section
  | start
  | sense
  | rows
  | columns
  | rhs
  | ranges
  | bounds
  | ended
deriving DecidableEq

def Section.header : Section → String
  | start => "NAME"
  | sense => "OBJSENSE"
  | rows => "ROWS"
  | columns => "COLUMNS"
  | rhs => "RHS"
  | ranges => "RANGES"
  | bounds => "BOUNDS"
  | ended => "ENDATA"

inductive Fault
  | unexpectedSection (word : String)
  | missingField (part : Section)
  | invalidNumber (word : String)
  | unknownRow (name : String)
  | duplicateRow (name : String)
  | unknownColumn (name : String)
  | unknownBoundType (kind : String)
  | unknownRowType (kind : String)
deriving DecidableEq

inductive Error
  | atLine (number : Nat) (fault : Fault)
  | missingObjectiveRow
  | invalidName (name : String)
  | duplicateName (name : String)
deriving DecidableEq

def Fault.message : Fault → String
  | unexpectedSection word => s!"unexpected section '{word}'"
  | missingField part => s!"missing field in {part.header} record"
  | invalidNumber word => s!"invalid number '{word}'"
  | unknownRow name => s!"unknown row '{name}'"
  | duplicateRow name => s!"row '{name}' is declared twice"
  | unknownColumn name => s!"unknown column '{name}'"
  | unknownBoundType kind => s!"unknown bound type '{kind}'"
  | unknownRowType kind => s!"unknown row type '{kind}'"

def Error.message : Error → String
  | atLine number fault => s!"line {number}: " ++ fault.message
  | missingObjectiveRow => "model has no objective row"
  | invalidName name => s!"name '{name}' cannot be written to MPS"
  | duplicateName name => s!"name '{name}' is used by more than one row or column"

end LinOpt.Mps
