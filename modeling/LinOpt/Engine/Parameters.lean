import LinOpt.Double.Arithmetic
import LinOpt.Double.Text
import LinOpt.Engine.Kind

namespace LinOpt

structure Parameters where
  showLog : Bool := false
  relativeGap : Option Double := some (.ofParts false (Double.decimalMagnitude 1 (-7)))
  timeLimitMs : Option UInt32 := none
  /-- Zero, too, leaves the choice to the engine. -/
  threadCount : Option UInt32 := none
  /-- Passed on word for word, after the parameters above. -/
  extra : List (String × String) := []
  exportPath : Option String := none
deriving BEq

namespace Parameters

def limitSeconds (p : Parameters) : Option Double :=
  p.timeLimitMs.map fun ms => Double.ofNat ms.toNat / Double.ofNat 1000

def threads (p : Parameters) : Option UInt32 := p.threadCount.filter (0 < ·)

def pairs (p : Parameters) (k : EngineKind) : List (String × String) :=
  ((p.relativeGap.map fun g => (k.keyName .relativeGap, g.text)).toList ++
    (p.threads.map fun n => (k.keyName .numberOfThreads, toString n.toNat)).toList ++
    (p.limitSeconds.map fun s => (k.keyName .timeLimit, s.text)).toList) ++ p.extra

def text (p : Parameters) (k : EngineKind) : String :=
  "\n".intercalate ((p.pairs k).map fun kv => kv.1 ++ k.separator.toString ++ kv.2)

end Parameters

end LinOpt
