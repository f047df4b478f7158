import LinOpt.Json.Basic
import LinOpt.Json.Literal

namespace LinOpt.Json

abbrev Read := Json NumberLiteral

def skip (cs : List Char) : List Char :=
  cs.dropWhile fun c => c == ' ' || c == '\n' || c == '\t' || c == '\r'

def hexDigit? (c : Char) : Option Nat :=
  if c.isDigit then some (c.toNat - '0'.toNat)
  else if 'a' ≤ c ∧ c ≤ 'f' then some (c.toNat - 'a'.toNat + 10)
  else if 'A' ≤ c ∧ c ≤ 'F' then some (c.toNat - 'A'.toNat + 10)
  else none

def hexUnit? (a b c d : Char) : Option Nat := do
  return (((← hexDigit? a) * 16 + (← hexDigit? b)) * 16 + (← hexDigit? c)) * 16 + (← hexDigit? d)

def shortEscape? : Char → Option Char
  | '"' => some '"'
  | '\\' => some '\\'
  | '/' => some '/'
  | 'b' => some '\u0008'
  | 'f' => some '\u000C'
  | 'n' => some '\n'
  | 'r' => some '\r'
  | 't' => some '\t'
  | _ => none

/-- The characters of a string so far, latest first, and a leading half of a surrogate pair that
still waits for its other half. -/
structure Pending where
  chars : List Char := []
  high : Option Nat := none
  broken : Bool := false

namespace Pending

def push (p : Pending) (c : Char) : Pending :=
  { chars := c :: p.chars, broken := p.broken || p.high.isSome }

def pushUnit (p : Pending) (u : Nat) : Pending :=
  if 0xD800 ≤ u ∧ u < 0xDC00 then
    { p with high := some u, broken := p.broken || p.high.isSome }
  else if 0xDC00 ≤ u ∧ u < 0xE000 then
    match p.high with
    | some h =>
      { p with
        chars := Char.ofNat (0x10000 + (h - 0xD800) * 0x400 + (u - 0xDC00)) :: p.chars
        high := none }
    | none => { p with broken := true }
  else p.push (Char.ofNat u)

def finish (p : Pending) : Option String :=
  if p.broken || p.high.isSome then none else some (String.ofList p.chars.reverse)

end Pending

def readString (p : Pending) : List Char → Option (Option String × List Char)
  | '"' :: cs => some (p.finish, cs)
  | '\\' :: 'u' :: a :: b :: c :: d :: cs =>
    match hexUnit? a b c d with
    | some u => readString (p.pushUnit u) cs
    | none => none
  | '\\' :: c :: cs =>
    match shortEscape? c with
    | some c => readString (p.push c) cs
    | none => none
  | c :: cs => if c.toNat < 0x20 then none else readString (p.push c) cs
  | [] => none

def readDigits (cs : List Char) : Option (List Char × List Char) :=
  match cs.takeWhile Char.isDigit with
  | [] => none
  | ds => some (ds, cs.dropWhile Char.isDigit)

def readFraction : List Char → Option (Option (List Char) × List Char)
  | '.' :: cs => (readDigits cs).map fun (ds, cs) => (some ds, cs)
  | cs => some (none, cs)

def readExponent : List Char → Option (Option Int × List Char)
  | c :: cs =>
    if c == 'e' || c == 'E' then
      let (negative, cs) := Double.splitSign cs
      (readDigits cs).map fun (ds, cs) =>
        let n : Int := Double.digitsValue ds
        (some (if negative then -n else n), cs)
    else some (none, c :: cs)
  | [] => some (none, [])

def readNumber (cs : List Char) : Option (Read × List Char) := do
  let (negative, cs) := match cs with
    | '-' :: cs => (true, cs)
    | cs => (false, cs)
  let (whole, cs) ← readDigits cs
  if whole.head? == some '0' && 1 < whole.length then none
  let (fraction, cs) ← readFraction cs
  let (exponent, cs) ← readExponent cs
  return (.number { negative, whole, fraction, exponent }, cs)

mutual

/-- A value that needs at most `fuel` nested steps; each step uses up a character. -/
def readValue : Nat → List Char → Option (Read × List Char)
  | 0, _ => none
  | fuel + 1, cs =>
    match skip cs with
    | 'n' :: 'u' :: 'l' :: 'l' :: cs => some (.null, cs)
    | 't' :: 'r' :: 'u' :: 'e' :: cs => some (.bool true, cs)
    | 'f' :: 'a' :: 'l' :: 's' :: 'e' :: cs => some (.bool false, cs)
    | '"' :: cs => (readString {} cs).map fun (s, cs) => (.string s, cs)
    | '[' :: cs =>
      match skip cs with
      | ']' :: cs => some (.array [], cs)
      | cs => readItems fuel [] cs
    | '\x7b' :: cs =>
      match skip cs with
      | '\x7d' :: cs => some (.object [], cs)
      | cs => readMembers fuel [] cs
    | cs => readNumber cs

def readItems : Nat → List Read → List Char → Option (Read × List Char)
  | 0, _, _ => none
  | fuel + 1, items, cs =>
    match readValue fuel cs with
    | none => none
    | some (item, cs) =>
      match skip cs with
      | ',' :: cs => readItems fuel (item :: items) cs
      | ']' :: cs => some (.array (item :: items).reverse, cs)
      | _ => none

def readMembers : Nat → List (Option String × Read) → List Char → Option (Read × List Char)
  | 0, _, _ => none
  | fuel + 1, members, cs =>
    match skip cs with
    | '"' :: cs =>
      match readString {} cs with
      | none => none
      | some (key, cs) =>
        match skip cs with
        | ':' :: cs =>
          match readValue fuel cs with
          | none => none
          | some (value, cs) =>
            match skip cs with
            | ',' :: cs => readMembers fuel ((key, value) :: members) cs
            | '\x7d' :: cs => some (.object ((key, value) :: members).reverse, cs)
            | _ => none
        | _ => none
    | _ => none

end

def parse? (s : String) : Option Read :=
  match readValue (s.length + 1) s.toList with
  | some (value, rest) => if (skip rest).isEmpty then some value else none
  | none => none

end LinOpt.Json
