namespace LinOpt

structure OrderedMap (κ α : Type) where
  entries : List (κ × α) := []

namespace OrderedMap

variable {κ α : Type} [Ord κ]

def empty : OrderedMap κ α := ⟨[]⟩

/-- Puts `fresh` in the place of `key`, or what `merge` makes of the entry that is there. -/
def upsertEntry (key : κ) (fresh : κ × α) (merge : κ × α → κ × α) : List (κ × α) → List (κ × α)
  | [] => [fresh]
  | e :: es =>
    match compare key e.1 with
    | .lt => fresh :: e :: es
    | .eq => merge e :: es
    | .gt => e :: upsertEntry key fresh merge es

/-- Combines with the value that is there; the key that is there stays. -/
def insertWith (combine : α → α → α) (m : OrderedMap κ α) (key : κ) (value : α) : OrderedMap κ α :=
  ⟨upsertEntry key (key, value) (fun e => (e.1, combine value e.2)) m.entries⟩

def insert (m : OrderedMap κ α) (key : κ) (value : α) : OrderedMap κ α :=
  ⟨upsertEntry key (key, value) (fun _ => (key, value)) m.entries⟩

def ofList (pairs : List (κ × α)) : OrderedMap κ α :=
  pairs.foldl (fun m p => m.insert p.1 p.2) empty

def get? (m : OrderedMap κ α) (key : κ) : Option α :=
  (m.entries.find? fun e => compare key e.1 == .eq).map (·.2)

def keys (m : OrderedMap κ α) : List κ := m.entries.map (·.1)

def size (m : OrderedMap κ α) : Nat := m.entries.length

def isEmpty (m : OrderedMap κ α) : Bool := m.entries.isEmpty

end OrderedMap

end LinOpt
