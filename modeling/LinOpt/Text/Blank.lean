namespace LinOpt.Text

/-- The characters with the Unicode property `White_Space`. -/
def blanks : List Char :=
  ['\t', '\n', '\u000B', '\u000C', '\r', ' ', '\u0085', '\u00A0', '\u1680', '\u2000', '\u2001',
    '\u2002', '\u2003', '\u2004', '\u2005', '\u2006', '\u2007', '\u2008', '\u2009', '\u200A',
    '\u2028', '\u2029', '\u202F', '\u205F', '\u3000']

def isBlank (c : Char) : Bool := blanks.contains c

def words (cs : List Char) : List String :=
  ((cs.splitOnP isBlank).filter fun w => !w.isEmpty).map String.ofList

/-- The lines of a text. A text that ends with a line break has an empty last line. -/
def lines (s : String) : List (List Char) := s.toList.splitOn '\n'

def isWord (s : String) : Bool := !s.toList.isEmpty && !s.toList.any isBlank

/-- Only the letters of ASCII have a case here. -/
def upper (s : String) : String := String.ofList (s.toList.map Char.toUpper)

end LinOpt.Text
