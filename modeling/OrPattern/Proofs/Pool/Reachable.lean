import OrPattern.Proofs.Join.All

namespace OrPattern

namespace Pool

variable {pool : Pool}

/-- The order is a partial order on all numbers, given out or not: types that
    are below each other are one type, not two with equal contents. -/
theorem isSubtype_partialOrder (hpool : pool.Reachable) :
    (∀ type, pool.isSubtype type type = true) ∧
    (∀ low middle high, pool.isSubtype low middle = true → pool.isSubtype middle high = true →
      pool.isSubtype low high = true) ∧
    ∀ one other, pool.isSubtype one other = true → pool.isSubtype other one = true →
      one = other := by
  have hwell := hpool.wellFormed
  refine ⟨pool.isSubtype_self, fun low middle high hlow hhigh => ?_, fun one other hone hother => ?_⟩
  · rw [hwell.isSubtype_iff] at hlow hhigh ⊢
    exact hlow.trans hwell hhigh
  · rw [hwell.isSubtype_iff] at hone hother
    exact hone.antisymm hwell hother

/-- A record that gives up a field, then widens the one it keeps. -/
theorem isSubtype_partialOrder_of_records :
    let a : Name := ⟨1⟩
    let pool := (((initial.record [(a, .i8), (⟨2⟩, .bool)]).2.record [(a, .i8)]).2.record
      [(a, .i32)]).2
    pool.isSubtype ⟨11⟩ ⟨13⟩ = true := by
  intro a pool
  have hpool : pool.Reachable :=
    (((Grows.refl initial).record [(a, .i8), (⟨2⟩, .bool)] (by decide)).record [(a, .i8)]
      (by decide)).record [(a, .i32)] (by decide)
  exact (isSubtype_partialOrder hpool).2.1 ⟨11⟩ ⟨12⟩ ⟨13⟩ (by decide +kernel) (by decide +kernel)

end Pool

end OrPattern
