import OrPattern.Rejection
import OrPattern.Ty.Pool

namespace OrPattern

/-- A step of compilation: it may enter types into the pool and may reject the
    pattern. The types stay entered even then. -/
abbrev Attempt (α : Type) := ExceptT Rejection (StateM Pool) α

/-- The outcome of a step, and the pool as the step leaves it. -/
def Attempt.runOn {α : Type} (attempt : Attempt α) (pool : Pool) : Except Rejection α × Pool :=
  (ExceptT.run attempt).run pool

end OrPattern
