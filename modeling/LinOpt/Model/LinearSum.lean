import LinOpt.Model.OrderedMap
import LinOpt.Model.Variable

namespace LinOpt

structure LinearSum (S C : Type) where
  terms : OrderedMap (Variable S) C := {}

namespace LinearSum

variable {S C : Type} [Scalar S] [Scalar C]

def zero : LinearSum S C := ⟨.empty⟩

/-- Adds a term; a coefficient that is there is the right operand of the addition. -/
def addTerm (s : LinearSum S C) (v : Variable S) (c : C) : LinearSum S C :=
  ⟨s.terms.insertWith (· + ·) v c⟩

def addTerms (s : LinearSum S C) (ts : List (Variable S × C)) : LinearSum S C :=
  ts.foldl (fun s t => s.addTerm t.1 t.2) s

def add (s t : LinearSum S C) : LinearSum S C := s.addTerms t.terms.entries

def ofTerms (ts : List (Variable S × C)) : LinearSum S C := zero.addTerms ts

def coefficient? (s : LinearSum S C) (v : Variable S) : Option C := s.terms.get? v

def «variables» (s : LinearSum S C) : List (Variable S) := s.terms.keys

def same (s t : LinearSum S C) : Bool :=
  s.terms.entries.isEqv t.terms.entries fun a b => a.1.same b.1 && Scalar.same a.2 b.2

def termText (t : Variable S × C) : String := Scalar.text t.2 ++ " " ++ t.1.name

def text (s : LinearSum S C) : String :=
  if s.terms.isEmpty then "0" else " + ".intercalate (s.terms.entries.map termText)

/-- Single terms and whole sums on their way into one expression. -/
structure Gathering (S C : Type) where
  terms : List (Variable S × C) := []
  sums : List (LinearSum S C) := []

namespace Gathering

def addTerm (g : Gathering S C) (c : C) (v : Variable S) : Gathering S C :=
  { g with terms := g.terms ++ [(v, c)] }

def addTerms (g : Gathering S C) (vs : List (Variable S)) (ws : List C) :
    Except BuildError (Gathering S C) :=
  if vs.length = ws.length then .ok { g with terms := g.terms ++ vs.zip ws }
  else .error (.weightCount vs.length ws.length)

def addSum (g : Gathering S C) (s : LinearSum S C) : Gathering S C :=
  { g with sums := g.sums ++ [s] }

/-- The single terms come first, then the sums, each in the order given. -/
def total (g : Gathering S C) : LinearSum S C := g.sums.foldl add (ofTerms g.terms)

end Gathering

end LinearSum

end LinOpt
