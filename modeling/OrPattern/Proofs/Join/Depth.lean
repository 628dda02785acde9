import OrPattern.Proofs.Join.Alike

namespace OrPattern

namespace Pool

section Same

variable {join other : Pool → Ty → Ty → Option Ty × Pool} {pool later : Pool}

/-- Two ways to join give the same for these types, whatever has been entered before. -/
def JoinsSame (join other : Pool → Ty → Ty → Option Ty × Pool) (pool : Pool) (xs ys : List Ty) :
    Prop :=
  ∀ later : Pool, later.WellFormed → pool.KeptBy later → ∀ x ∈ xs, ∀ y ∈ ys,
    other later x y = join later x y

theorem JoinsSame.of_subset {xs ys someXs someYs : List Ty}
    (hsame : JoinsSame join other pool xs ys) (hkept : pool.KeptBy later) (hxs : someXs ⊆ xs)
    (hys : someYs ⊆ ys) : JoinsSame join other later someXs someYs :=
  fun last hlast hkept' x hx y hy => hsame last hlast (hkept.trans hkept') x (hxs hx) y (hys hy)

theorem joinElements_congr {xs ys : List Ty} (hpool : pool.WellFormed)
    (hjoin : JoinsAll join pool xs ys) (hsame : JoinsSame join other pool xs ys) :
    joinElements other pool xs ys = joinElements join pool xs ys := by
  induction xs generalizing pool ys with
  | nil => rfl
  | cons x xs ih =>
    cases ys with
    | nil => rfl
    | cons y ys =>
      have hfirst := hjoin pool hpool (KeptBy.refl pool) x List.mem_cons_self y List.mem_cons_self
      have hother := hsame pool hpool (KeptBy.refl pool) x List.mem_cons_self y List.mem_cons_self
      rcases hrun : join pool x y with ⟨result, next⟩
      rw [hrun] at hfirst hother
      have hkept : pool.KeptBy next := hfirst.kept
      cases result with
      | none => rw [joinElements_cons_of_none hrun, joinElements_cons_of_none hother]
      | some type =>
        rw [joinElements_cons_of_some hrun, joinElements_cons_of_some hother,
          ih hfirst.wellFormed
            (hjoin.of_subset hkept (List.subset_cons_self x xs) (List.subset_cons_self y ys))
            (hsame.of_subset hkept (List.subset_cons_self x xs) (List.subset_cons_self y ys))]

theorem joinFields_congr {xs ys : List (Name × Ty)} (hpool : pool.WellFormed)
    (hjoin : JoinsAll join pool (xs.map Prod.snd) (ys.map Prod.snd))
    (hsame : JoinsSame join other pool (xs.map Prod.snd) (ys.map Prod.snd)) :
    joinFields other ys pool xs = joinFields join ys pool xs := by
  induction xs generalizing pool with
  | nil => rfl
  | cons field xs ih =>
    obtain ⟨name, x⟩ := field
    have hrest : ∀ later : Pool, later.WellFormed → pool.KeptBy later →
        joinFields other ys later xs = joinFields join ys later xs := fun later hlater hkept =>
      ih hlater (hjoin.of_subset hkept (List.subset_cons_self _ _) (List.Subset.refl _))
        (hsame.of_subset hkept (List.subset_cons_self _ _) (List.Subset.refl _))
    cases hfield : fieldType? name ys with
    | none =>
      rw [joinFields_cons_of_absent hfield, joinFields_cons_of_absent hfield]
      exact hrest pool hpool (KeptBy.refl pool)
    | some y =>
      have hy : y ∈ ys.map Prod.snd := List.mem_map.mpr ⟨_, mem_of_fieldType? hfield, rfl⟩
      have hfirst := hjoin pool hpool (KeptBy.refl pool) x List.mem_cons_self y hy
      have hother := hsame pool hpool (KeptBy.refl pool) x List.mem_cons_self y hy
      rcases hrun : join pool x y with ⟨result, next⟩
      rw [hrun] at hfirst hother
      have hrest := hrest next hfirst.wellFormed hfirst.kept
      cases result with
      | none =>
        rw [joinFields_cons_of_none hfield hrun, joinFields_cons_of_none hfield hother, hrest]
      | some type =>
        rw [joinFields_cons_of_some hfield hrun, joinFields_cons_of_some hfield hother, hrest]

end Same

variable {pool : Pool} {a b : Ty}

/-- Every descent of a join reaches types without parts before a depth above the
    number of its left type runs out. -/
theorem WellFormed.joinWithin_eq (hpool : pool.WellFormed) {depth deeper : Nat}
    (ha : pool.contains a) (hb : pool.contains b) (hdepth : a.index < depth)
    (hdeeper : a.index < deeper) : joinWithin deeper pool a b = joinWithin depth pool a b := by
  induction depth generalizing pool a b deeper with
  | zero => omega
  | succ depth ih =>
    obtain ⟨deeper, rfl⟩ : ∃ rest, deeper = rest + 1 := ⟨deeper - 1, by omega⟩
    by_cases hab : pool.isSubtype a b = true
    · simp only [joinWithin, hab, if_true]
    by_cases hba : pool.isSubtype b a = true
    · simp only [joinWithin, hab, hba, if_true]
    obtain ⟨aForm, haForm⟩ := exists_form?_of_contains ha
    obtain ⟨bForm, hbForm⟩ := exists_form?_of_contains hb
    -- The parts of `a` are older than `a`, so either depth left suffices for them.
    have hparts : ∀ later : Pool, pool.KeptBy later → ∀ x ∈ aForm.components,
        ∀ y ∈ bForm.components, later.contains x ∧ later.contains y ∧ x.index < a.index := by
      intro later hkept x hx y hy
      have hx := Form.mem_mentions_of_mem_components hx
      have hy := Form.mem_mentions_of_mem_components hy
      exact ⟨hkept.contains (hpool.contains_of_mem_mentions haForm hx),
        hkept.contains (hpool.contains_of_mem_mentions hbForm hy), hpool.older haForm x hx⟩
    have hjoins : JoinsAll (joinWithin depth) pool aForm.components bForm.components := by
      intro later hlater hkept x hx y hy
      obtain ⟨hx, hy, holder⟩ := hparts later hkept x hx y hy
      exact hlater.joinsTo_joinWithin hx hy (by omega)
    have hsame : JoinsSame (joinWithin depth) (joinWithin deeper) pool aForm.components
        bForm.components := by
      intro later hlater hkept x hx y hy
      obtain ⟨hx, hy, holder⟩ := hparts later hkept x hx y hy
      exact ih hlater hx hy (by omega) (by omega)
    by_cases htuples : ∃ xs ys, aForm = .tuple xs ∧ bForm = .tuple ys ∧ xs.length = ys.length
    · obtain ⟨xs, ys, rfl, rfl, harity⟩ := htuples
      rw [joinWithin_of_tuples hab hba haForm hbForm harity,
        joinWithin_of_tuples hab hba haForm hbForm harity]
      exact congrArg tupled (joinElements_congr hpool hjoins hsame)
    by_cases hrecords : ∃ as bs, aForm = .record as ∧ bForm = .record bs
    · obtain ⟨as, bs, rfl, rfl⟩ := hrecords
      rw [joinWithin_of_records hab hba haForm hbForm,
        joinWithin_of_records hab hba haForm hbForm]
      exact congrArg recorded (joinFields_congr hpool hjoins hsame)
    · rw [joinWithin_of_others hab hba haForm hbForm htuples hrecords,
        joinWithin_of_others hab hba haForm hbForm htuples hrecords]

/-- The depth that a join starts with is no limit. -/
theorem WellFormed.joinWithin_eq_join (hpool : pool.WellFormed) {depth : Nat}
    (ha : pool.contains a) (hb : pool.contains b) (hdepth : a.index < depth) :
    joinWithin depth pool a b = pool.join a b :=
  hpool.joinWithin_eq ha hb (index_lt_join_depth ha) hdepth

end Pool

end OrPattern
