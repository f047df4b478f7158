import LinOpt.Model.Interval

namespace LinOpt

inductive VariableKind
  | continuous
  | integer
  | binary
deriving DecidableEq, Inhabited

namespace VariableKind

def all : List VariableKind := [continuous, integer, binary]

def isIntegral : VariableKind → Bool
  | continuous => false
  | integer | binary => true

def name : VariableKind → String
  | continuous => "Continuous"
  | integer => "Integer"
  | binary => "Binary"

def rank : VariableKind → Nat
  | continuous => 0
  | integer => 1
  | binary => 2

end VariableKind

structure Variable (S : Type) where
  name : String
  interval : Interval S
  kind : VariableKind

namespace Variable

variable {S : Type} [Scalar S]

def compare (v w : Variable S) : Ordering :=
  (Ord.compare v.name w.name).then
    ((v.interval.compare w.interval).then (Ord.compare v.kind.rank w.kind.rank))

instance : Ord (Variable S) := ⟨compare⟩

def same (v w : Variable S) : Bool := v.compare w == .eq

def text (v : Variable S) : String := s!"{v.name} ∈ {v.interval.text}"

end Variable

end LinOpt
