import LinOpt.Scalar.Promotion

namespace LinOpt

inductive Quantity
  | real (x : Double)
  | integer (n : Int64)
  | binary (b : Bit)

namespace Quantity

def domain : Quantity → String
  | real _ => "real"
  | integer _ => "integer"
  | binary _ => "binary"

def text : Quantity → String
  | real x => Scalar.text x
  | integer n => Scalar.text n
  | binary b => Scalar.text b

def add : Quantity → Quantity → Quantity
  | real x, real y => real (x + y)
  | real x, integer n => real (x + n)
  | real x, binary b => real (x + b)
  | integer n, real x => real (n + x)
  | integer n, integer k => integer (n + k)
  | integer n, binary b => integer (n + b)
  | binary b, real x => real (b + x)
  | binary b, integer n => integer (b + n)
  | binary b, binary c => binary (b + c)

def sub : Quantity → Quantity → Quantity
  | real x, real y => real (x - y)
  | real x, integer n => real (x - n)
  | real x, binary b => real (x - b)
  | integer n, real x => real (n - x)
  | integer n, integer k => integer (n - k)
  | integer n, binary b => integer (n - b)
  | binary b, real x => real (b - x)
  | binary b, integer n => integer (b - n)
  | binary b, binary c => binary (b - c)

instance : Add Quantity := ⟨add⟩
instance : Sub Quantity := ⟨sub⟩

end Quantity

end LinOpt
