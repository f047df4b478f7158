import LinOpt.Json.Basic

namespace LinOpt.Json

def unitEscape (n : Nat) : String :=
  let ds := Nat.toDigits 16 n
  "\\u" ++ String.ofList (List.replicate (4 - ds.length) '0' ++ ds)

def escape (c : Char) : String :=
  let n := c.toNat
  match c with
  | '"' => "\\\""
  | '\\' => "\\\\"
  | '\u0008' => "\\b"
  | '\t' => "\\t"
  | '\n' => "\\n"
  | '\u000C' => "\\f"
  | '\r' => "\\r"
  | _ =>
    if 32 ≤ n ∧ n < 127 then c.toString
    else if n < 0x10000 then unitEscape n
    else unitEscape (0xD800 + (n - 0x10000) / 0x400) ++ unitEscape (0xDC00 + (n - 0x10000) % 0x400)

def quote (s : String) : String := "\"" ++ String.join (s.toList.map escape) ++ "\""

variable {ν μ : Type}

mutual

def replaceNumbers (f : ν → Json μ) : Json ν → Json μ
  | .null => .null
  | .bool b => .bool b
  | .number n => f n
  | .string s => .string s
  | .array items => .array (replaceInItems f items)
  | .object members => .object (replaceInMembers f members)

def replaceInItems (f : ν → Json μ) : List (Json ν) → List (Json μ)
  | [] => []
  | j :: js => replaceNumbers f j :: replaceInItems f js

def replaceInMembers (f : ν → Json μ) :
    List (Option String × Json ν) → List (Option String × Json μ)
  | [] => []
  | (key, j) :: ms => (key, replaceNumbers f j) :: replaceInMembers f ms

end

def joinMembers (ms : List (String × String)) : String :=
  let sorted := ms.mergeSort fun a b => (compare a.1 b.1).isLE
  "\x7b" ++ ",".intercalate (sorted.map fun m => quote m.1 ++ ":" ++ m.2) ++ "\x7d"

mutual

def render (number : ν → String) : Json ν → String
  | .null => "null"
  | .bool b => toString b
  | .number n => number n
  | .string s => quote (s.getD "")
  | .array items => "[" ++ ",".intercalate (renderItems number items) ++ "]"
  | .object members => joinMembers (renderMembers number members)

def renderItems (number : ν → String) : List (Json ν) → List String
  | [] => []
  | j :: js => render number j :: renderItems number js

def renderMembers (number : ν → String) : List (Option String × Json ν) → List (String × String)
  | [] => []
  | (key, j) :: ms => (key.getD "", render number j) :: renderMembers number ms

end

end LinOpt.Json
