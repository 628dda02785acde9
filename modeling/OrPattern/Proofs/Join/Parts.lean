import OrPattern.Proofs.Join.Bounds
import OrPattern.Proofs.Pool.Enter
import OrPattern.Ty.Join

namespace OrPattern

namespace Pool

/-- The outcome of joining two sequences pair by pair. -/
structure ElementsJoinTo (pool : Pool) (xs ys : List Ty) (result : Option (List Ty) × Pool) :
    Prop where
  wellFormed : result.2.WellFormed
  kept : pool.KeptBy result.2
  least : ∀ {types : List Ty}, result.1 = some types → types.length = xs.length ∧
    ∀ (index : Nat) (x y type : Ty), xs[index]? = some x → ys[index]? = some y →
      types[index]? = some type → result.2.contains type ∧ result.2.LeastAbove (Pair x y) type
  noBound : result.1 = none → ∃ (index : Nat) (x y : Ty), xs[index]? = some x ∧ ys[index]? = some y ∧
    result.2.NoneAbove (Pair x y)

/-- The outcome of joining the common fields of two records. -/
structure FieldsJoinTo (pool : Pool) (xs ys : List (Name × Ty))
    (result : List (Name × Ty) × Pool) : Prop where
  wellFormed : result.2.WellFormed
  kept : pool.KeptBy result.2
  order : (result.1.map Prod.fst).Sublist (xs.map Prod.fst)
  joined : ∀ {name : Name} {type : Ty}, (name, type) ∈ result.1 →
    ∃ x y, (name, x) ∈ xs ∧ (name, y) ∈ ys ∧ result.2.contains type ∧
      result.2.LeastAbove (Pair x y) type
  dropped : ∀ {name : Name} {x y : Ty}, (name, x) ∈ xs → (name, y) ∈ ys →
    (∃ type, (name, type) ∈ result.1 ∧ result.2.LeastAbove (Pair x y) type) ∨
      result.2.NoneAbove (Pair x y)

/-- A way to join that answers rightly for these types, whatever has been entered
    before. -/
def JoinsAll (join : Pool → Ty → Ty → Option Ty × Pool) (pool : Pool) (xs ys : List Ty) : Prop :=
  ∀ later : Pool, later.WellFormed → pool.KeptBy later → ∀ x ∈ xs, ∀ y ∈ ys,
    later.JoinsTo (Pair x y) (join later x y)

variable {join : Pool → Ty → Ty → Option Ty × Pool} {pool later : Pool}

theorem JoinsAll.of_subset {xs ys someXs someYs : List Ty} (hjoin : JoinsAll join pool xs ys)
    (hkept : pool.KeptBy later) (hxs : someXs ⊆ xs) (hys : someYs ⊆ ys) :
    JoinsAll join later someXs someYs :=
  fun last hlast hkept' x hx y hy => hjoin last hlast (hkept.trans hkept') x (hxs hx) y (hys hy)

theorem joinElements_spec {xs ys : List Ty} (hpool : pool.WellFormed)
    (harity : xs.length = ys.length) (hjoin : JoinsAll join pool xs ys) :
    pool.ElementsJoinTo xs ys (joinElements join pool xs ys) := by
  induction xs generalizing pool ys with
  | nil =>
    refine ⟨hpool, KeptBy.refl pool, fun h => ?_, nofun⟩
    cases Option.some.inj h
    exact ⟨rfl, nofun⟩
  | cons x xs ih =>
    obtain ⟨y, ys, rfl⟩ : ∃ y rest, ys = y :: rest := 
      List.exists_cons_of_length_pos (by simp [← harity])
    have hfirst := hjoin pool hpool (KeptBy.refl pool) x List.mem_cons_self y List.mem_cons_self
    rcases hresult : join pool x y with ⟨result, next⟩
    rw [hresult] at hfirst
    have hkept : pool.KeptBy next := hfirst.kept
    cases result with
    | none =>
      simp only [joinElements, hresult]
      exact ⟨hfirst.wellFormed, hkept, nofun, fun _ => ⟨0, x, y, rfl, rfl, hfirst.noBound rfl⟩⟩
    | some type =>
      have hrest := ih hfirst.wellFormed (by simpa using harity) (hjoin.of_subset hkept
        (List.subset_cons_self x xs) (List.subset_cons_self y ys))
      obtain ⟨hknown, hleast⟩ := hfirst.least rfl
      rcases htypes : joinElements join next xs ys with ⟨types, last⟩
      rw [htypes] at hrest
      cases types with
      | none =>
        simp only [joinElements, hresult, htypes]
        refine ⟨hrest.wellFormed, hkept.trans hrest.kept, nofun, fun _ => ?_⟩
        obtain ⟨index, a, b, ha, hb, hnone⟩ := hrest.noBound rfl
        exact ⟨index + 1, a, b, ha, hb, hnone⟩
      | some types =>
        simp only [joinElements, hresult, htypes]
        refine ⟨hrest.wellFormed, hkept.trans hrest.kept, fun h => ?_, nofun⟩
        obtain rfl := Option.some.inj h
        obtain ⟨hlength, helements⟩ := hrest.least rfl
        refine ⟨by simp [hlength], fun index a b joined ha hb hjoined => ?_⟩
        cases index with
        | zero =>
          cases ha
          cases hb
          cases hjoined
          exact ⟨hrest.kept.contains hknown, hleast.mono hrest.kept⟩
        | succ index => exact helements index a b joined ha hb hjoined

theorem joinFields_spec {xs ys : List (Name × Ty)} (hpool : pool.WellFormed)
    (hxs : AscendingByName Prod.fst xs) (hys : AscendingByName Prod.fst ys)
    (hjoin : JoinsAll join pool (xs.map Prod.snd) (ys.map Prod.snd)) :
    pool.FieldsJoinTo xs ys (joinFields join ys pool xs) := by
  induction xs generalizing pool with
  | nil => exact ⟨hpool, KeptBy.refl pool, List.Sublist.refl _, nofun, nofun⟩
  | cons field xs ih =>
    obtain ⟨name, x⟩ := field
    obtain ⟨hfirst, hxs⟩ := List.pairwise_cons.mp hxs
    have hrest : ∀ later : Pool, later.WellFormed → pool.KeptBy later →
        later.FieldsJoinTo xs ys (joinFields join ys later xs) := fun later hlater hkept =>
      ih hlater hxs (hjoin.of_subset hkept (List.subset_cons_self _ _) (List.Subset.refl _))
    cases hfield : fieldType? name ys with
    | none =>
      have hrest := hrest pool hpool (KeptBy.refl pool)
      simp only [joinFields, hfield]
      refine ⟨hrest.wellFormed, hrest.kept, hrest.order.cons _, fun hmem => ?_, fun hx hy => ?_⟩
      · obtain ⟨a, b, ha, hb⟩ := hrest.joined hmem
        exact ⟨a, b, List.mem_cons_of_mem _ ha, hb⟩
      · rcases List.mem_cons.mp hx with heq | hx
        · cases heq
          rw [← fieldType?_eq_some_iff hys, hfield] at hy
          cases hy
        · exact hrest.dropped hx hy
    | some y =>
      have hy : (name, y) ∈ ys := (fieldType?_eq_some_iff hys).mp hfield
      have hpair := hjoin pool hpool (KeptBy.refl pool) x List.mem_cons_self y
        (List.mem_map.mpr ⟨_, hy, rfl⟩)
      rcases hresult : join pool x y with ⟨result, next⟩
      rw [hresult] at hpair
      have hkept : pool.KeptBy next := hpair.kept
      have hrest := hrest next hpair.wellFormed hkept
      cases result with
      | none =>
        simp only [joinFields, hfield, hresult]
        refine ⟨hrest.wellFormed, hkept.trans hrest.kept, hrest.order.cons _, fun hmem => ?_,
          fun hx hy' => ?_⟩
        · obtain ⟨a, b, ha, hb⟩ := hrest.joined hmem
          exact ⟨a, b, List.mem_cons_of_mem _ ha, hb⟩
        · rcases List.mem_cons.mp hx with heq | hx
          · cases heq
            cases hys.eq_of_key_eq hy hy' rfl
            exact .inr ((hpair.noBound rfl).mono hrest.kept)
          · exact hrest.dropped hx hy'
      | some type =>
        obtain ⟨hknown, hleast⟩ := hpair.least rfl
        rcases hfields : joinFields join ys next xs with ⟨fields, last⟩
        rw [hfields] at hrest
        simp only [joinFields, hfield, hresult, hfields]
        have hkept' : next.KeptBy last := hrest.kept
        refine ⟨hrest.wellFormed, hkept.trans hkept', hrest.order.cons_cons _, fun hmem => ?_,
          fun hx hy' => ?_⟩
        · rcases List.mem_cons.mp hmem with heq | hmem
          · cases heq
            exact ⟨x, y, List.mem_cons_self, hy, hkept'.contains hknown, hleast.mono hkept'⟩
          · obtain ⟨a, b, ha, hb⟩ := hrest.joined hmem
            exact ⟨a, b, List.mem_cons_of_mem _ ha, hb⟩
        · rcases List.mem_cons.mp hx with heq | hx
          · cases heq
            cases hys.eq_of_key_eq hy hy' rfl
            exact .inl ⟨type, List.mem_cons_self, hleast.mono hkept'⟩
          · rcases hrest.dropped hx hy' with ⟨found, hmem, hfound⟩ | hnone
            · exact .inl ⟨found, List.mem_cons_of_mem _ hmem, hfound⟩
            · exact .inr hnone

end Pool

end OrPattern
