import LinOpt.Proofs.Double.Width
import LinOpt.Proofs.Mps.Written

namespace LinOpt.Mps

structure TwoSided (r : Row) : Prop where
  lower : r.lower.isFinite = true
  upper : r.upper.isFinite = true
  lt : r.lower.numLt r.upper = true

section

variable {r s : Row}

theorem TwoSided.numLe (h : TwoSided r) : r.lower.numLe r.upper = true := by
  obtain ⟨hl, hu, hlt⟩ := Double.numLt_iff.mp h.lt
  exact Double.numLe_iff.mpr ⟨hl, hu, Int.le_of_lt hlt⟩

end

variable {p : Program} {text : String}

end LinOpt.Mps
