import OrPattern.Proofs.Compile.Collects
import OrPattern.Proofs.Compile.Rejects
import OrPattern.Proofs.Join.All
import OrPattern.Proofs.Shape.Certify

namespace OrPattern

open Attempt

variable {options : Options} {context : CollectContext} {expected : Ty} {path : Path}
  {alternatives : List Pattern} {span : Span} {allowed : Rejection → Prop} {pool later : Pool}

/-- A rejection that is not about shape, or one of those about shape that can come
    late. -/
def Rejection.Late (allowed : Rejection → Prop) (rejection : Rejection) : Prop :=
  ∀ problem, rejection.cause = .shape problem → allowed rejection

namespace Rejection

variable {rejection : Rejection}

theorem Late.mono {other : Rejection → Prop} (hlate : rejection.Late allowed)
    (hother : allowed rejection → other rejection) : rejection.Late other :=
  fun problem hproblem => hother (hlate problem hproblem)

end Rejection

namespace Pattern

variable {pattern : Pattern} {scrutinee : Ty} {rejection : Rejection}

end Pattern

end OrPattern
