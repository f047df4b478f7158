import LinOpt.Text.Blank

namespace LinOpt.Mps

/-- A line counts only by its words and by whether it is indented. Empty lines, and lines that begin
with a star, say nothing. -/
structure Line where
  indented : Bool
  words : List String

namespace Line

def ofChars? (cs : List Char) : Option Line :=
  match Text.words cs with
  | [] => none
  | ws => if cs.head? = some '*' then none else some ⟨cs.head?.any Text.isBlank, ws⟩

def numbered (text : String) : List (Nat × Line) :=
  ((Text.lines text).zipIdx 1).filterMap fun (cs, n) => (ofChars? cs).map (n, ·)

end Line

end LinOpt.Mps
