import LinOpt.Engine.Parameters
import LinOpt.Program.Basic
import LinOpt.Solver.Answer

namespace LinOpt

structure Engine where
  name : String
  kind : EngineKind
  solve : Program → Parameters → Except SolveError EngineAnswer

structure Host where
  engine? : EngineChoice → Option Engine
  writable : String → Bool
  /-- Whether a limit in milliseconds is over at a given check of the clock. -/
  expired : UInt32 → Nat → Bool

namespace Host

def offers (h : Host) (c : EngineChoice) : Bool := (h.engine? c).isSome

/-- The engine that is asked for, or else the one that steps in for it. -/
def resolve (h : Host) (c : EngineChoice) : Traced SolveError (Engine × Bool) := do
  match h.engine? c, h.engine? .fallback with
  | some e, _ => return (e, false)
  | none, some e =>
    Traced.tell [.substituted c .fallback]
    return (e, true)
  | none, none => throw (.noEngine c .fallback)

def clock (h : Host) (limit : Option UInt32) : Nat → Bool :=
  (limit.map h.expired).getD fun _ => false

end Host

end LinOpt
