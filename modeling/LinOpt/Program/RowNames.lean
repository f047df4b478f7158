namespace LinOpt.RowNames

def numbered (base : String) (k : Nat) : String := s!"{base}_{k}"

/-- The first numbered form of `base` outside `used`. Among one more form than there are used names
there is one. -/
def firstFree (base : String) (used : List String) : String :=
  match (List.range (used.length + 1)).find? fun k => !used.contains (numbered base (k + 1)) with
  | some k => numbered base (k + 1)
  | none => base

def base (i : Nat) (name : Option String) : String := name.getD s!"c{i}"

/-- The name of row `i`, where `taken` holds the names of the rows before it. The first row with a
given name keeps it; a repetition, or a default name that some row was given, gets a number. -/
def next (given taken : List String) (i : Nat) (name : Option String) : String :=
  let blocked := if name.isSome then taken else given ++ taken
  if blocked.contains (base i name) then firstFree (base i name) (given ++ taken) else base i name

def assign (given : List String) : Nat → List String → List (Option String) → List String
  | _, _, [] => []
  | i, taken, name :: names =>
    let s := next given taken i name
    s :: assign given (i + 1) (s :: taken) names

def unique (names : List (Option String)) : List String := assign (names.filterMap id) 0 [] names

def renamed (names : List (Option String)) : List (String × String) :=
  ((names.zipIdx.map fun (name, i) => base i name).zip (unique names)).filter fun p => p.1 != p.2

end LinOpt.RowNames
