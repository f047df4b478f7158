import LinOpt.Proofs.Double.Whole

namespace LinOpt.Double

variable {x y : Double}

section

variable {a b : Int}

end

end LinOpt.Double
