import OrPattern.Proofs.Join.Composed
import OrPattern.Proofs.Join.Kind

namespace OrPattern

namespace Pool

variable {pool later : Pool} {a b : Ty}

/-- Declared types join at the first common ancestor, if they have one. -/
theorem WellFormed.joinsTo_ancestor (hpool : pool.WellFormed) (ha : pool.isNominal a)
    (hb : pool.isNominal b) :
    pool.JoinsTo (Pair a b) ((pool.ancestors b).find? (pool.ancestors a).contains, pool) := by
  have hcommon : ∀ later : Pool, later.WellFormed → pool.KeptBy later → ∀ bound,
      later.Above (Pair a b) bound →
        bound ∈ pool.ancestors a ∧ bound ∈ pool.ancestors b := by
    intro later hlater hkept bound habove
    obtain ⟨hlow, hhigh⟩ := above_pair_iff.mp habove
    have hchain : ∀ {type : Ty}, pool.isNominal type → later.Below type bound →
        bound ∈ pool.ancestors type := by
      intro type hnominal hbelow
      obtain ⟨form, hform, -⟩ := isNominal_iff.mp hnominal
      refine hpool.mem_ancestors_iff.mpr ?_
      refine (hlater.eq_or_descends (hkept.isNominal hnominal) hbelow).imp_right ?_
      exact fun hdescends => hdescends.of_later hpool hkept (contains_of_form? hform)
    exact ⟨hchain ha hlow, hchain hb hhigh⟩
  have hbelow : ∀ {type bound : Ty}, bound ∈ pool.ancestors type → pool.Below type bound := by
    intro type bound hmem
    rcases hpool.mem_ancestors_iff.mp hmem with rfl | hdescends
    · exact .refl bound
    · exact .nominal hdescends
  cases hfind : (pool.ancestors b).find? (pool.ancestors a).contains with
  | none =>
    refine .absent hpool fun later hlater hkept bound habove => ?_
    obtain ⟨hmem, hmem'⟩ := hcommon later hlater hkept bound habove
    exact List.find?_eq_none.mp hfind bound hmem' (List.contains_iff_mem.mpr hmem)
  | some first =>
    obtain ⟨hfirst, before, after, hsplit, hbefore⟩ := List.find?_eq_some_iff_append.mp hfind
    have hmem : first ∈ pool.ancestors a := List.contains_iff_mem.mp hfirst
    have hmem' : first ∈ pool.ancestors b := hsplit ▸ List.mem_append_right _ List.mem_cons_self
    have hknown : pool.contains first := by
      have hnominal : pool.isNominal first := by
        rcases hpool.mem_ancestors_iff.mp hmem with rfl | hdescends
        · exact ha
        · exact (hpool.isNominal_of_descends hdescends).2
      obtain ⟨form, hform, -⟩ := isNominal_iff.mp hnominal
      exact contains_of_form? hform
    refine .found hpool hknown fun later hlater hkept => ⟨?_, fun bound habove => ?_⟩
    · exact above_pair_iff.mpr ⟨(hbelow hmem).mono hkept, (hbelow hmem').mono hkept⟩
    · obtain ⟨hbound, hbound'⟩ := hcommon later hlater hkept bound habove
      rw [hsplit] at hbound'
      rcases List.mem_append.mp hbound' with hearly | hlate
      · have := hbefore bound hearly
        simp [hbound] at this
      · rw [← hpool.ancestors_of_split hsplit] at hlate
        exact (hbelow hlate).mono hkept

/-- Tuples of different lengths have nothing above both. -/
theorem noneAbove_of_lengths {xs ys : List Ty} (haForm : pool.form? a = some (.tuple xs))
    (hbForm : pool.form? b = some (.tuple ys)) (hlengths : xs.length ≠ ys.length) :
    pool.NoneAbove (Pair a b) := by
  intro later hlater hkept bound habove
  obtain ⟨hlow, hhigh⟩ := above_pair_iff.mp habove
  obtain ⟨us, hbound, hxs, -⟩ := hlow.of_tuple hlater (hkept.form? haForm)
  obtain ⟨us', hbound', hys, -⟩ := hhigh.of_tuple hlater (hkept.form? hbForm)
  cases hbound.symm.trans hbound'
  exact hlengths (hxs.trans hys.symm)

/-- Types that do not compare have nothing above both, unless both are tuples, both
    records or both declared. -/
theorem WellFormed.noneAbove_of_unlike (hpool : pool.WellFormed) {aForm bForm : Form}
    (haForm : pool.form? a = some aForm) (hbForm : pool.form? b = some bForm)
    (hab : ¬ pool.Below a b) (hba : ¬ pool.Below b a)
    (htuples : ∀ xs ys, aForm = .tuple xs → bForm = .tuple ys → False)
    (hrecords : ∀ xs ys, aForm = .record xs → bForm = .record ys → False)
    (hnominal : ¬ (aForm.isNominal && bForm.isNominal) = true) : pool.NoneAbove (Pair a b) := by
  refine noneAbove_of_kind_ne haForm hbForm hab hba fun hkind => ?_
  refine (hpool.comparable_of_kind_eq haForm hbForm hkind ?_ ?_ ?_).elim hab hba
  · intro htuple
    cases aForm <;> cases htuple
    cases bForm <;> cases hkind
    exact htuples _ _ rfl rfl
  · intro hrecord
    cases aForm <;> cases hrecord
    cases bForm <;> cases hkind
    exact hrecords _ _ rfl rfl
  · intro hdeclared
    exact hnominal (Bool.and_eq_true_iff.mpr ⟨Form.kind_eq_nominal_iff.mp hdeclared,
      Form.kind_eq_nominal_iff.mp (hkind.symm.trans hdeclared)⟩)

/-- A join that looks deep enough finds the least type above both, or there is
    none above both. -/
theorem WellFormed.joinsTo_joinWithin (hpool : pool.WellFormed) {depth : Nat}
    (ha : pool.contains a) (hb : pool.contains b) (hdepth : a.index < depth) :
    pool.JoinsTo (Pair a b) (joinWithin depth pool a b) := by
  induction depth generalizing pool a b with
  | zero => omega
  | succ depth ih =>
    unfold joinWithin
    split
    · next hab => exact .found hpool hb (leastAbove_pair_of_below (hpool.isSubtype_iff.mp hab))
    split
    · next hba =>
      exact .found hpool ha
        ((leastAbove_pair_of_below (hpool.isSubtype_iff.mp hba)).congr (pair_comm b a))
    next hab hba =>
    rw [hpool.isSubtype_iff] at hab hba
    -- The parts of `a` are older than `a`, so the depth left suffices for them.
    have hparts : ∀ {aForm bForm : Form}, pool.form? a = some aForm → pool.form? b = some bForm →
        JoinsAll (joinWithin depth) pool aForm.components bForm.components := by
      intro aForm bForm haForm hbForm later hlater hkept x hx y hy
      have hx := Form.mem_mentions_of_mem_components hx
      have hy := Form.mem_mentions_of_mem_components hy
      have holder := hpool.older haForm x hx
      exact ih hlater (hkept.contains (hpool.contains_of_mem_mentions haForm hx))
        (hkept.contains (hpool.contains_of_mem_mentions hbForm hy)) (by omega)
    split
    · next xs ys haForm hbForm =>
      split
      · next harity =>
        have hspec := joinElements_spec hpool harity (hparts haForm hbForm)
        have hnonempty : xs ≠ [] := by
          rintro rfl
          cases List.length_eq_zero_iff.mp harity.symm
          exact hab (hpool.unique haForm hbForm rfl ▸ .refl a)
        rcases hresult : joinElements (joinWithin depth) pool xs ys with ⟨result, next⟩
        rw [hresult] at hspec
        cases result with
        | none => exact hspec.noneAbove haForm hbForm
        | some types => exact hspec.leastAbove haForm hbForm harity hnonempty
      · next harity =>
        exact .absent hpool (noneAbove_of_lengths haForm hbForm harity)
    · next xs ys haForm hbForm =>
      have hspec := joinFields_spec hpool (hpool.ascending haForm) (hpool.ascending hbForm)
        (hparts haForm hbForm)
      rcases hresult : joinFields (joinWithin depth) ys pool xs with ⟨fields, next⟩
      rw [hresult] at hspec
      cases fields with
      | nil => exact hspec.noneAbove hpool haForm hbForm hba
      | cons field fields => exact hspec.leastAbove hpool haForm hbForm hba (List.cons_ne_nil _ _)
    · next aForm bForm htuples hrecords haForm hbForm =>
      split
      · next hnominal =>
        obtain ⟨hlow, hhigh⟩ := Bool.and_eq_true_iff.mp hnominal
        exact hpool.joinsTo_ancestor (isNominal_iff.mpr ⟨aForm, haForm, hlow⟩)
          (isNominal_iff.mpr ⟨bForm, hbForm, hhigh⟩)
      · next hnominal =>
        exact .absent hpool
          (hpool.noneAbove_of_unlike haForm hbForm hab hba htuples hrecords hnominal)
    · next hforms =>
      obtain ⟨aForm, haForm⟩ := exists_form?_of_contains ha
      obtain ⟨bForm, hbForm⟩ := exists_form?_of_contains hb
      exact absurd hbForm (hforms aForm bForm haForm)

end Pool

end OrPattern
