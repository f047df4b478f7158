namespace LinOpt

/-- A document, with the spelling of its numbers when it was read, and their value when it is to be
written. A string is absent where an escape names half a surrogate pair: no text has it, but it may
stand where nobody looks. The members of an object keep their order and may repeat. -/
inductive Json (ν : Type)
  | null
  | bool (b : Bool)
  | number (n : ν)
  | string (s : Option String)
  | array (items : List (Json ν))
  | object (members : List (Option String × Json ν))
deriving Inhabited

namespace Json

variable {ν : Type}

def text (s : String) : Json ν := .string (some s)

def record (members : List (String × Json ν)) : Json ν :=
  .object (members.map fun m => (some m.1, m.2))

def optional {α : Type} (f : α → Json ν) (x : Option α) : Json ν := (x.map f).getD .null

end Json

end LinOpt
