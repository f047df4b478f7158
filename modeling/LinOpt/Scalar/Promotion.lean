import LinOpt.Scalar.Basic

namespace LinOpt

namespace Bit

def toInt64 (b : Bit) : Int64 := if b.isOne then 1 else 0

def toReal (b : Bit) : Double := Scalar.toDouble b

/-- The remainder modulo two keeps the sign of the sum. -/
def addReal (b : Bit) (x : Double) : Double := (b.toReal + x) % Double.ofNat 2

/-- The remainder modulo two keeps the sign of the wrapped sum. -/
def addInt64 (b : Bit) (n : Int64) : Int64 := (b.toInt64 + n) % 2

end Bit

def Double.ofInt64 (n : Int64) : Double := Scalar.toDouble n

instance : HAdd Bit Double Double := ⟨Bit.addReal⟩
instance : HSub Bit Double Double := ⟨Bit.addReal⟩
instance : HAdd Bit Int64 Int64 := ⟨Bit.addInt64⟩
instance : HSub Bit Int64 Int64 := ⟨Bit.addInt64⟩
instance : HAdd Int64 Double Double := ⟨fun n x => .ofInt64 n + x⟩
instance : HSub Int64 Double Double := ⟨fun n x => .ofInt64 n - x⟩
instance : HAdd Int64 Bit Int64 := ⟨fun n b => n + b.toInt64⟩
instance : HSub Int64 Bit Int64 := ⟨fun n b => n - b.toInt64⟩
instance : HAdd Double Int64 Double := ⟨fun x n => x + .ofInt64 n⟩
instance : HSub Double Int64 Double := ⟨fun x n => x - .ofInt64 n⟩
instance : HAdd Double Bit Double := ⟨fun x b => x + b.toReal⟩
instance : HSub Double Bit Double := ⟨fun x b => x - b.toReal⟩

end LinOpt
