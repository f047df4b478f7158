import LinOpt.Proofs.Except
import LinOpt.Solver.Exchange
import LinOpt.Solver.Host

namespace LinOpt

namespace Traced

variable {ε α : Type}

@[simp]
theorem result_pure (a : α) : (pure a : Traced ε α).result = .ok a := rfl

@[simp]
theorem result_of (x : Except ε α) : (of x).result = x := rfl

@[simp]
theorem result_tell (es : List Event) : (tell es : Traced ε Unit).result = .ok () := rfl

end Traced

variable {S C V : Type} [Scalar S] [Scalar C] [Scalar V]

theorem Model.result_program (m : Model S C) :
    m.program.result = (Program.ofModel m).mapError fun v => .foreignVariable v.name := by
  rw [program, Traced.result_bind, Traced.result_tell]
  cases h : Program.ofModel m <;> rfl

theorem Mps.ofModel_eq_ok {m : Model S C} {text : String} : (ofModel m).result = .ok text ↔
    ∃ p, Program.ofModel m = .ok p ∧ write p = .ok text := by
  have hbind : (ofModel m).result = m.program.result >>= textOf := Traced.result_bind _ _
  rw [hbind, Except.bind_eq_ok, Model.result_program]
  simp only [Except.mapError_eq_ok, textOf]

theorem Mps.result_exportTo_none (writable : String → Bool) (p : Program) :
    (exportTo writable none p).result = .ok () := rfl

theorem Solution.result_ofNative {n : NativeStatus} {status : SolutionStatus} (h : n.common = .ok status)
    (report : Option EngineReport) (vs : List (Variable S)) :
    (ofNative n report vs : Traced SolveError (Solution S V)).result = ofAnswer ⟨status, report⟩ vs := by
  have hcommon : n.toCommon.result = .ok status := by
    rw [NativeStatus.toCommon, h]
    rfl
  rw [ofNative, Traced.result_bind, hcommon]
  rfl

end LinOpt
