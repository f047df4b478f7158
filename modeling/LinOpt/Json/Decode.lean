import LinOpt.Json.Reader

namespace LinOpt.Json

/-- What a record gives for each of its fields. A record is an object or an array of its fields in
order. Keys that no field has are passed over, and a field may not be given twice. -/
def fields (names : List String) : Read → Option (List (Option Read))
  | .object members =>
    if members.all (·.1.isSome) then
      names.mapM fun name =>
        match members.filter (·.1 == some name) with
        | [] => some none
        | [m] => some (some m.2)
        | _ => none
    else none
  | .array items =>
    if items.length ≤ names.length then
      some (items.map some ++ List.replicate (names.length - items.length) none)
    else none
  | _ => none

def required {α : Type} (decode : Read → Option α) (x : Option Read) : Option α := x.bind decode

def withDefault {α : Type} (default : α) (decode : Read → Option α) : Option Read → Option α
  | none => some default
  | some x => decode x

def bool? : Read → Option Bool
  | .bool b => some b
  | _ => none

def double? : Read → Option Double
  | .number n => n.toDouble?
  | _ => none

def uint32? : Read → Option UInt32
  | .number n => n.toUInt32?
  | _ => none

def string? : Read → Option String
  | .string s => s
  | _ => none

def nullable {α : Type} (decode : Read → Option α) : Read → Option (Option α)
  | .null => some none
  | x => (decode x).map some

def list? {α : Type} (decode : Read → Option α) : Read → Option (List α)
  | .array items => items.mapM decode
  | _ => none

def stringPair? : Read → Option (String × String)
  | .array [a, b] => do return (← string? a, ← string? b)
  | _ => none

/-- One of finitely many values, by its tag or by an object with the tag as its only key. -/
def tagged? {α : Type} (all : List α) (tag : α → String) : Read → Option α
  | .string s => all.find? fun a => some (tag a) == s
  | .object [(s, .null)] => all.find? fun a => some (tag a) == s
  | _ => none

end LinOpt.Json
