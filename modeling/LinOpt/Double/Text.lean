import LinOpt.Double.Rounding

namespace LinOpt.Double

/-- A decimal `digits * 10 ^ exponent`. -/
structure Decimal where
  digits : Nat
  exponent : Int

/-- The two multiples of `10 ^ exponent` around `m` units, the one nearer to it first; of two
equally near ones the upper. -/
def neighbours (m : Nat) (exponent : Int) : List Decimal :=
  let num := if 0 ≤ exponent then m else m * 10 ^ (-exponent).toNat
  let den := if 0 ≤ exponent then scale * 10 ^ exponent.toNat else scale
  let low := num / den
  if 2 * (num % den) < den then [⟨low, exponent⟩, ⟨low + 1, exponent⟩]
  else [⟨low + 1, exponent⟩, ⟨low, exponent⟩]

/-- Searches ever finer grids for a decimal that reads back as `m`; the exact expansion always
does, so it closes the search. -/
def shortestFrom (m : Nat) (exponent : Int) : Nat → Decimal
  | 0 => ⟨unitsOf m * 5 ^ 1074, -1074⟩
  | steps + 1 =>
    match (neighbours (unitsOf m) exponent).find? fun d =>
        decimalMagnitude d.digits d.exponent == m with
    | some d => d
    | none => shortestFrom m (exponent - 1) steps

/-- The shortest decimal of a finite magnitude that is not zero. The search starts at a power of
ten above the number and ends, at the latest, with 17 digits. -/
def shortest (m : Nat) : Decimal :=
  shortestFrom m ((((unitsOf m).log2 : Int) - 1073) * 30103 / 100000 + 1) 20

def zeros (n : Nat) : List Char := List.replicate n '0'

/-- Positional text, without an exponent and without a point if there is no fraction. -/
def Decimal.positional (d : Decimal) : List Char :=
  let ds := Nat.toDigits 10 d.digits
  if 0 ≤ d.exponent then ds ++ zeros d.exponent.toNat
  else
    let places := (-d.exponent).toNat
    let padded := zeros (places + 1 - ds.length) ++ ds
    padded.take (padded.length - places) ++ '.' :: padded.drop (padded.length - places)

def magnitudeText (m : Nat) : List Char :=
  if m = 0 then ['0']
  else if m = infinite then ['i', 'n', 'f']
  else (shortest m).positional

def text (x : Double) : String :=
  if x.isNaN then "NaN"
  else String.ofList (if x.isNegative then '-' :: magnitudeText x.magnitude
    else magnitudeText x.magnitude)

/-- Text with a fixed number of decimal places. The exact number is rounded to them, a half to the
even neighbour, and the sign stays also if nothing else does. -/
def fixedText (places : Nat) (x : Double) : String :=
  if x.isNaN then "NaN"
  else
    let digits :=
      if x.isInfinite then ['i', 'n', 'f']
      else Decimal.positional ⟨roundHalfEven (unitsOf x.magnitude * 10 ^ places) scale, -places⟩
    String.ofList (if x.isNegative then '-' :: digits else digits)

def digitsValue (ds : List Char) : Nat :=
  ds.foldl (fun n c => 10 * n + (c.toNat - '0'.toNat)) 0

/-- The magnitude of a decimal of any size. Exponents far outside the range of numbers are decided
without computing the power. -/
def readMagnitude (digits : Nat) (exponent : Int) : Nat :=
  if digits = 0 then 0
  else if 400 < exponent then infinite
  else if exponent < -1100 - (Nat.toDigits 10 digits).length then 0
  else decimalMagnitude digits exponent

def splitSign : List Char → Bool × List Char
  | '-' :: cs => (true, cs)
  | '+' :: cs => (false, cs)
  | cs => (false, cs)

def readExponent : List Char → Option Int
  | [] => some 0
  | e :: cs =>
    let (negative, ds) := splitSign cs
    if (e == 'e' || e == 'E') && !ds.isEmpty && ds.all Char.isDigit then
      some (if negative then -(digitsValue ds : Int) else digitsValue ds)
    else none

def fraction : List Char → List Char × List Char
  | '.' :: cs => (cs.takeWhile Char.isDigit, cs.dropWhile Char.isDigit)
  | cs => ([], cs)

def readDecimal (cs : List Char) : Option Nat :=
  let whole := cs.takeWhile Char.isDigit
  let (part, rest) := fraction (cs.dropWhile Char.isDigit)
  if whole.isEmpty && part.isEmpty then none
  else (readExponent rest).map fun e => readMagnitude (digitsValue (whole ++ part)) (e - part.length)

def readUnsigned (cs : List Char) : Option Nat :=
  let word := cs.map Char.toLower
  if word = ['i', 'n', 'f'] ∨ word = ['i', 'n', 'f', 'i', 'n', 'i', 't', 'y'] then some infinite
  else if word = ['n', 'a', 'n'] then some nan.magnitude
  else readDecimal cs

def parse? (s : String) : Option Double :=
  let (negative, cs) := splitSign s.toList
  (readUnsigned cs).map (ofParts negative)

end LinOpt.Double
