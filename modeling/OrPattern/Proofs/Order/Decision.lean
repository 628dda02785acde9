import OrPattern.Proofs.Order.Chain

namespace OrPattern

/-- On ascending fields the search by halving misses nothing. -/
theorem fieldTypeWithin?_eq_some_iff {fields : List (Name × Ty)} {name : Name} {type : Ty}
    {bound : Nat} (hfields : AscendingByName Prod.fst fields) (hbound : fields.length ≤ bound) :
    fieldTypeWithin? name bound fields = some type ↔ (name, type) ∈ fields := by
  induction bound generalizing fields with
  | zero =>
    obtain rfl := List.length_eq_zero_iff.mp (Nat.le_zero.mp hbound)
    simp [fieldTypeWithin?]
  | succ bound ih =>
    simp only [fieldTypeWithin?]
    generalize hhalf : fields.length / 2 = half
    have hsplit := List.take_append_drop half fields
    split
    · next hnone =>
      have hlength := List.drop_eq_nil_iff.mp hnone
      obtain rfl := List.length_eq_zero_iff.mp (show fields.length = 0 by omega)
      simp
    · next field found after hafter =>
      have hlength := congrArg List.length hafter
      rw [List.length_drop, List.length_cons] at hlength
      have hbefore := List.length_take_le half fields
      generalize fields.take half = before at hsplit hbefore
      rw [hafter] at hsplit
      subst hsplit
      obtain ⟨hlow, hhigh, hbetween⟩ := List.pairwise_append.mp hfields
      obtain ⟨hlast, hhigh⟩ := List.pairwise_cons.mp hhigh
      have hsmaller : (name, type) ∈ before → name.number < field.number := fun hmem =>
        hbetween _ hmem _ List.mem_cons_self
      have hlarger : (name, type) ∈ after → field.number < name.number := fun hmem => hlast _ hmem
      rw [List.mem_append, List.mem_cons, Prod.mk.injEq]
      split
      · next heq =>
        subst heq
        refine ⟨fun h => .inr (.inl ⟨rfl, (Option.some.inj h).symm⟩), ?_⟩
        rintro (hmem | ⟨-, rfl⟩ | hmem)
        · exact absurd (hsmaller hmem) (Nat.lt_irrefl _)
        · rfl
        · exact absurd (hlarger hmem) (Nat.lt_irrefl _)
      · next hne =>
        split
        · next hlt =>
          rw [ih hlow (by omega)]
          refine ⟨.inl, ?_⟩
          rintro (hmem | ⟨rfl, -⟩ | hmem)
          · exact hmem
          · exact absurd rfl hne
          · exact absurd (hlarger hmem) (Nat.lt_asymm hlt)
        · next hge =>
          rw [ih hhigh (by omega)]
          refine ⟨fun hmem => .inr (.inr hmem), ?_⟩
          rintro (hmem | ⟨rfl, -⟩ | hmem)
          · exact absurd (hsmaller hmem) hge
          · exact absurd rfl hne
          · exact hmem

/-- A field of a record is found at its type. -/
theorem fieldType?_eq_some_iff {fields : List (Name × Ty)} {name : Name} {type : Ty}
    (hfields : AscendingByName Prod.fst fields) :
    fieldType? name fields = some type ↔ (name, type) ∈ fields :=
  fieldTypeWithin?_eq_some_iff hfields Nat.le.refl

/-- The forms of the types that stand below and above no other. -/
def Form.isRigid : Form → Bool
  | .bool | .char | .str | .tuple [] => true
  | _ => false

namespace Flags

theorem inheritedFromAll_eq (components : List Flags) :
    inheritedFromAll components = { hasNominal := components.any Flags.hasNominal } := by
  suffices h : ∀ start : Bool,
      components.foldl (fun all flags => all.union flags.inherited)
        ({ hasNominal := start } : Flags) =
          { hasNominal := start || components.any Flags.hasNominal } from h false
  induction components with
  | nil => simp
  | cons flags rest ih =>
    intro start
    simpa [union, inherited, Bool.or_assoc] using ih (start || flags.hasNominal)

theorem isRigid_ofForm (flagsOf : Ty → Flags) (form : Form) :
    (ofForm flagsOf form).isRigid = form.isRigid := by
  cases form with
  | tuple elements =>
    cases elements <;> simp [ofForm, Flags.isRigid, Form.isRigid, inheritedFromAll_eq]
  | record fields => simp [ofForm, Flags.isRigid, Form.isRigid, inheritedFromAll_eq]
  | _ => rfl

theorem nominal_ofForm (flagsOf : Ty → Flags) (form : Form) :
    (ofForm flagsOf form).nominal = form.isNominal := by
  cases form with
  | tuple elements => cases elements <;> simp [ofForm, Form.isNominal, inheritedFromAll_eq]
  | record fields => simp [ofForm, Form.isNominal, inheritedFromAll_eq]
  | _ => rfl

end Flags

namespace Pool

/-- Below another type stand the type itself, `never`, and types whose form
    allows it. -/
theorem Below.exists_forms {pool : Pool} (hpool : pool.WellFormed) {sub sup : Ty}
    (hbelow : pool.Below sub sup) (hne : sub ≠ sup) (hnever : sub ≠ .never) :
    ∃ subForm supForm, pool.form? sub = some subForm ∧ pool.form? sup = some supForm ∧
      subForm.isRigid = false ∧ supForm.isRigid = false := by
  cases hbelow with
  | refl => exact absurd rfl hne
  | never => exact absurd rfl hnever
  | int subForm supForm _ => exact ⟨_, _, subForm, supForm, rfl, rfl⟩
  | float subForm supForm _ => exact ⟨_, _, subForm, supForm, rfl, rfl⟩
  | nominal descends =>
    obtain ⟨hsub, hsup⟩ := hpool.isNominal_of_descends descends
    obtain ⟨subForm, hsubForm, hsub⟩ := isNominal_iff.mp hsub
    obtain ⟨supForm, hsupForm, hsup⟩ := isNominal_iff.mp hsup
    refine ⟨subForm, supForm, hsubForm, hsupForm, ?_, ?_⟩
    · cases subForm <;> first | rfl | cases hsub
    · cases supForm <;> first | rfl | cases hsup
  | @tuple _ _ xs ys subForm supForm arity nonempty _ =>
    refine ⟨_, _, subForm, supForm, ?_, ?_⟩
    · cases xs with
      | nil => exact absurd rfl nonempty
      | cons => rfl
    · cases ys with
      | nil => exact absurd (List.length_eq_zero_iff.mp arity) nonempty
      | cons => rfl
  | record _ subForm supForm _ _ _ => exact ⟨_, _, subForm, supForm, rfl, rfl⟩

namespace WellFormed

variable {pool : Pool} {sub sup : Ty}

theorem form?_never (hpool : pool.WellFormed) : pool.form? .never = some .never :=
  @hpool.primitives 10 _ rfl

/-- Above a declared type stand only its ancestors. -/
theorem eq_or_descends (hpool : pool.WellFormed) (hnominal : pool.isNominal sub)
    (hbelow : pool.Below sub sup) : sup = sub ∨ pool.Descends sub sup := by
  obtain ⟨form, hform, hdeclared⟩ := isNominal_iff.mp hnominal
  cases hbelow with
  | refl => exact .inl rfl
  | never =>
    cases hform.symm.trans hpool.form?_never
    cases hdeclared
  | nominal descends => exact .inr descends
  | int subForm _ _ | float subForm _ _ | tuple subForm _ _ _ _ | record _ subForm _ _ _ _ =>
    cases hform.symm.trans subForm
    cases hdeclared

theorem isRigid_flags (hpool : pool.WellFormed) {type : Ty} {form : Form}
    (hform : pool.form? type = some form) : (pool.flags type).isRigid = form.isRigid := by
  rw [hpool.flagsOf hform, Flags.isRigid_ofForm]

theorem nominal_flags (hpool : pool.WellFormed) {type : Ty} {form : Form}
    (hform : pool.form? type = some form) : (pool.flags type).nominal = form.isNominal := by
  rw [hpool.flagsOf hform, Flags.nominal_ofForm]

/-- A record is below a non-empty one of which it has every field at a lower
    type. -/
theorem record_below (hpool : pool.WellFormed) {xs ys : List (Name × Ty)}
    (hsub : pool.form? sub = some (.record xs)) (hsup : pool.form? sup = some (.record ys))
    (hnonempty : ys ≠ [])
    (hfields : ∀ name y, (name, y) ∈ ys → ∃ x, (name, x) ∈ xs ∧ pool.Below x y) :
    pool.Below sub sup := by
  have hlookup : ∀ name y, (name, y) ∈ ys →
      ∃ x, fieldType? name xs = some x ∧ (name, x) ∈ xs ∧ pool.Below x y := by
    intro name y hmem
    obtain ⟨x, hx, hxy⟩ := hfields name y hmem
    exact ⟨x, (fieldType?_eq_some_iff (hpool.ascending hsub)).mpr hx, hx, hxy⟩
  refine .record (fun name => (fieldType? name xs).getD .never) hsub hsup hnonempty ?_ ?_
  · intro name y hmem
    obtain ⟨x, hfound, hx, -⟩ := hlookup name y hmem
    rw [hfound]
    exact hx
  · intro name y hmem
    obtain ⟨x, hfound, -, hxy⟩ := hlookup name y hmem
    rw [hfound]
    exact hxy

/-- One level of the comparison, for two types that are neither equal nor settled
    by `never` or by their flags. -/
theorem isBelow_iff (hpool : pool.WellFormed) {below : Ty → Ty → Bool} {subForm supForm : Form}
    (hsub : pool.form? sub = some subForm) (hsup : pool.form? sup = some supForm)
    (hne : sub ≠ sup) (hnever : sub ≠ .never) (hrigid : subForm.isRigid = false)
    (hstructural : subForm.isNominal = false)
    (hbelow : ∀ x ∈ subForm.components, ∀ y, below x y = true ↔ pool.Below x y) :
    subForm.isBelow below supForm = true ↔ pool.Below sub sup := by
  constructor
  · intro h
    unfold Form.isBelow at h
    split at h
    · exact .int hsub hsup (of_decide_eq_true h)
    · exact .float hsub hsup (of_decide_eq_true h)
    · next xs ys =>
      obtain ⟨harity, hall⟩ := Bool.and_eq_true_iff.mp h
      refine .tuple hsub hsup (eq_of_beq harity) ?_ fun index x y hx hy => ?_
      · rintro rfl
        cases hrigid
      · refine (hbelow x (List.mem_of_getElem? hx) y).mp ?_
        refine List.all_eq_true.mp hall (x, y) (List.mem_of_getElem? (i := index) ?_)
        exact List.getElem?_zip_eq_some.mpr ⟨hx, hy⟩
    · next xs ys =>
      obtain ⟨hnonempty, hall⟩ := Bool.and_eq_true_iff.mp h
      refine hpool.record_below hsub hsup ?_ fun name y hmem => ?_
      · rintro rfl
        cases hnonempty
      · obtain ⟨x, hx, hxy⟩ := (Option.any_eq_true _ _).mp (List.all_eq_true.mp hall (name, y) hmem)
        have hmem := (fieldType?_eq_some_iff (hpool.ascending hsub)).mp hx
        exact ⟨x, hmem, (hbelow x (List.mem_map.mpr ⟨_, hmem, rfl⟩) y).mp hxy⟩
    · cases h
  · intro h
    cases h with
    | refl => exact absurd rfl hne
    | never => exact absurd rfl hnever
    | int subForm' supForm' wider =>
      cases hsub.symm.trans subForm'
      cases hsup.symm.trans supForm'
      exact decide_eq_true wider
    | float subForm' supForm' wider =>
      cases hsub.symm.trans subForm'
      cases hsup.symm.trans supForm'
      exact decide_eq_true wider
    | nominal descends =>
      obtain ⟨form, hform, hnominal⟩ := isNominal_iff.mp (hpool.isNominal_of_descends descends).1
      cases hsub.symm.trans hform
      rw [hnominal] at hstructural
      cases hstructural
    | tuple subForm' supForm' arity nonempty elements =>
      cases hsub.symm.trans subForm'
      cases hsup.symm.trans supForm'
      refine Bool.and_eq_true_iff.mpr ⟨beq_iff_eq.mpr arity, List.all_eq_true.mpr ?_⟩
      rintro ⟨x, y⟩ hmem
      obtain ⟨index, hindex⟩ := List.mem_iff_getElem?.mp hmem
      obtain ⟨hx, hy⟩ := List.getElem?_zip_eq_some.mp hindex
      exact (hbelow x (List.mem_of_getElem? hx) y).mpr (elements index x y hx hy)
    | record pick subForm' supForm' nonempty present fields =>
      cases hsub.symm.trans subForm'
      cases hsup.symm.trans supForm'
      refine Bool.and_eq_true_iff.mpr ⟨by simpa using nonempty, List.all_eq_true.mpr ?_⟩
      rintro ⟨name, y⟩ hmem
      have hpick := present name y hmem
      refine (Option.any_eq_true _ _).mpr
        ⟨pick name, (fieldType?_eq_some_iff (hpool.ascending hsub)).mpr hpick, ?_⟩
      exact (hbelow _ (List.mem_map.mpr ⟨_, hpick, rfl⟩) y).mpr (fields name y hmem)

/-- The test by flags and forms follows the rules of the order, once its depth
    exceeds the number of the lower type. -/
theorem isSubtypeWithin_iff (hpool : pool.WellFormed) {depth : Nat}
    (hdepth : min sub.index pool.size < depth) :
    pool.isSubtypeWithin depth sub sup = true ↔ pool.Below sub sup := by
  induction depth generalizing sub sup with
  | zero => omega
  | succ depth ih =>
    unfold isSubtypeWithin
    by_cases hne : sub = sup
    · simp [hne, Below.refl]
    by_cases hnever : sub = .never
    · simp [hnever, Below.never]
    simp only [hne, hnever, decide_false, Bool.or_self, Bool.false_eq_true, if_false]
    cases hsub : pool.form? sub with
    | none =>
      refine ⟨fun h => absurd h (by split <;> exact Bool.false_ne_true), fun h => ?_⟩
      obtain ⟨_, _, hform, -⟩ := h.exists_forms hpool hne hnever
      rw [hsub] at hform
      cases hform
    | some subForm =>
      cases hsup : pool.form? sup with
      | none =>
        refine ⟨fun h => absurd h (by split <;> exact Bool.false_ne_true), fun h => ?_⟩
        obtain ⟨_, _, -, hform, -⟩ := h.exists_forms hpool hne hnever
        rw [hsup] at hform
        cases hform
      | some supForm =>
        simp only [hpool.isRigid_flags hsub, hpool.isRigid_flags hsup, hpool.nominal_flags hsub]
        split
        · next hrigid =>
          refine ⟨nofun, fun h => ?_⟩
          obtain ⟨_, _, hsub', hsup', hlow, hhigh⟩ := h.exists_forms hpool hne hnever
          cases hsub.symm.trans hsub'
          cases hsup.symm.trans hsup'
          simp [hlow, hhigh] at hrigid
        · next hrigid =>
          have hrigid : subForm.isRigid = false ∧ supForm.isRigid = false := by simpa using hrigid
          have hlt := contains_iff.mp (contains_of_form? hsub)
          split
          · next hnominal =>
            rw [List.contains_iff_mem, hpool.mem_ancestors_iff]
            have hdeclared : pool.isNominal sub := isNominal_iff.mpr ⟨subForm, hsub, hnominal⟩
            exact ⟨fun h => .nominal (h.resolve_left (Ne.symm hne)), hpool.eq_or_descends hdeclared⟩
          · next hnominal =>
            refine hpool.isBelow_iff hsub hsup hne hnever hrigid.1 (by simpa using hnominal) ?_
            intro x hx y
            have := hpool.older hsub x (Form.mem_mentions_of_mem_components hx)
            exact ih (by omega)

/-- The test of the order decides its rules. -/
theorem isSubtype_iff (hpool : pool.WellFormed) :
    pool.isSubtype sub sup = true ↔ pool.Below sub sup := by
  refine hpool.isSubtypeWithin_iff ?_
  have := Nat.le_mul_self pool.size
  omega

end WellFormed

end Pool

end OrPattern
