import OrPattern.Proofs.Compile.Extends
import OrPattern.Proofs.Compile.Unknown

namespace OrPattern

variable {pool : Pool}

namespace Attempt

variable {α β : Type}

/-- Started on this pool, the step enters nothing, whatever its outcome. -/
def Still (pool : Pool) (attempt : Attempt α) : Prop := (attempt.runOn pool).2 = pool

namespace Still

theorem pure (value : α) : Still pool (pure value : Attempt α) := rfl

theorem throw (rejection : Rejection) : Still pool (throw rejection : Attempt α) := rfl

theorem liftM (attempt : Except Rejection α) : Still pool (liftM attempt : Attempt α) := by
  cases attempt <;> rfl

theorem bind {attempt : Attempt α} {next : α → Attempt β} (hattempt : attempt.Still pool)
    (hnext : ∀ value, attempt.Yields pool value pool → (next value).Still pool) :
    (attempt >>= next).Still pool := by
  unfold Still at hattempt ⊢
  rw [runOn_bind]
  rcases hrun : attempt.runOn pool with ⟨_ | value, middle⟩ <;> rw [hrun] at hattempt
  · exact hattempt
  · obtain rfl : middle = pool := hattempt
    exact hnext value hrun

theorem get_bind {next : Pool → Attempt α} (hnext : (next pool).Still pool) :
    (get >>= next).Still pool := by
  unfold Still
  rw [runOn_get_bind]
  exact hnext

end Still

end Attempt

open Attempt

variable {options : Options} {expected : Ty} {path : Path} {span : Span}

namespace BindingSite

variable {name : Name} {sites : List BindingSite}

end BindingSite

namespace Pattern

variable {pattern : Pattern} {alternatives : List Pattern} (hpool : pool.WellFormed)
  (hunknown : ¬ pool.contains expected)

include hpool hunknown

end Pattern

end OrPattern
