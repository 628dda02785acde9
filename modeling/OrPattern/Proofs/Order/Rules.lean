import OrPattern.Proofs.Join.All

namespace OrPattern

namespace Pool

variable {pool : Pool} {sub sup : Ty}

namespace WellFormed

/-- A type that the flags call declared is declared: a number that was not given
    out has no flags. -/
theorem isNominal_of_flags (hpool : pool.WellFormed) (hnominal : (pool.flags sub).nominal = true) :
    pool.isNominal sub = true := by
  cases hform : pool.form? sub with
  | none =>
    rw [flags_eq_empty_of_form? hform] at hnominal
    cases hnominal
  | some form => exact isNominal_iff.mpr ⟨form, hform, hpool.nominal_flags hform ▸ hnominal⟩

/-- What the flags call rigid compares with itself and `never` only. -/
theorem not_below_of_isRigid (hpool : pool.WellFormed) (hne : sub ≠ sup) (hnever : sub ≠ .never)
    (hrigid : ((pool.flags sub).isRigid || (pool.flags sup).isRigid) = true) :
    ¬ pool.Below sub sup := by
  intro hbelow
  obtain ⟨subForm, supForm, hsub, hsup, hlow, hhigh⟩ := hbelow.exists_forms hpool hne hnever
  rw [hpool.isRigid_flags hsub, hpool.isRigid_flags hsup, hlow, hhigh] at hrigid
  cases hrigid

/-- Above what the flags call declared stands its chain of parents, and nothing
    else. -/
theorem below_iff_mem_ancestors (hpool : pool.WellFormed)
    (hnominal : (pool.flags sub).nominal = true) :
    pool.Below sub sup ↔ sup ∈ pool.ancestors sub := by
  rw [hpool.mem_ancestors_iff]
  refine ⟨hpool.eq_or_descends (hpool.isNominal_of_flags hnominal), ?_⟩
  rintro (rfl | hdescends)
  · exact .refl sup
  · exact .nominal hdescends

end WellFormed

/-- The test of the order decides its rules, for all numbers. What it settles
    early by the flags is what the rules say, the search in the fields of a record
    finds every field, and no chain of parents is cut short. -/
theorem isSubtype_decides_below (hpool : pool.Reachable) :
    (∀ sub sup, pool.isSubtype sub sup = true ↔ pool.Below sub sup) ∧
    (∀ sub sup, sub ≠ sup → sub ≠ .never →
      ((pool.flags sub).isRigid || (pool.flags sup).isRigid) = true → ¬ pool.Below sub sup) ∧
    (∀ sub sup, (pool.flags sub).nominal = true →
      (pool.Below sub sup ↔ sup ∈ pool.ancestors sub)) ∧
    (∀ sub sup, sup ∈ pool.ancestors sub ↔ sup = sub ∨ pool.Descends sub sup) ∧
    ∀ type fields, pool.form? type = some (.record fields) → ∀ name part,
      fieldType? name fields = some part ↔ (name, part) ∈ fields := by
  have hwell := hpool.wellFormed
  exact ⟨fun sub sup => hwell.isSubtype_iff,
    fun sub sup hne hnever => hwell.not_below_of_isRigid hne hnever,
    fun sub sup => hwell.below_iff_mem_ancestors, fun sub sup => hwell.mem_ancestors_iff,
    fun type fields hform name part => fieldType?_eq_some_iff (hwell.ascending hform)⟩

/-- A record that gives up a field and takes another one to the root of a chain of
    classes. -/
theorem isSubtype_decides_below_of_records :
    let pool := (((((initial.declareClass ⟨1⟩ none).2.declareClass ⟨2⟩ (some ⟨11⟩)).2.declareClass
      ⟨3⟩ (some ⟨12⟩)).2.record [(⟨4⟩, ⟨13⟩), (⟨5⟩, .i8)]).2.record [(⟨4⟩, ⟨11⟩)]).2
    pool.Below ⟨14⟩ ⟨15⟩ ∧ ¬ pool.Below ⟨15⟩ ⟨14⟩ ∧ pool.Descends ⟨13⟩ ⟨11⟩ := by
  intro pool
  have hpool : pool.Reachable :=
    (((((Grows.refl initial).declareClass ⟨1⟩ none (by decide)).declareClass ⟨2⟩ (some ⟨11⟩)
      (by decide)).declareClass ⟨3⟩ (some ⟨12⟩) (by decide)).record [(⟨4⟩, ⟨13⟩), (⟨5⟩, .i8)]
        (by decide)).record [(⟨4⟩, ⟨11⟩)] (by decide)
  obtain ⟨hdecides, -, -, hchain, -⟩ := isSubtype_decides_below hpool
  have hmember : (⟨11⟩ : Ty) ∈ pool.ancestors ⟨13⟩ := by decide +kernel
  exact ⟨(hdecides ⟨14⟩ ⟨15⟩).mp (by decide +kernel),
    fun hbelow => absurd ((hdecides ⟨15⟩ ⟨14⟩).mpr hbelow) (by decide +kernel),
    ((hchain ⟨13⟩ ⟨11⟩).mp hmember).resolve_left (by decide)⟩

end Pool

end OrPattern
