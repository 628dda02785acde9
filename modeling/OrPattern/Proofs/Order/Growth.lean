import OrPattern.Proofs.Order.Laws
import OrPattern.Proofs.Pool.Renaming

namespace OrPattern

namespace Pool

variable {pool later : Pool} {a b : Ty}

theorem Descends.mono (hkept : pool.KeptBy later) (hdescends : pool.Descends a b) :
    later.Descends a b := by
  have hparent : ∀ {type parent : Ty}, pool.parent? type = some parent →
      later.parent? type = some parent := by
    intro type parent hparent
    obtain ⟨form, hform, -⟩ := exists_form?_of_parent? hparent
    rw [hkept.parent?_eq (contains_of_form? hform), hparent]
  induction hdescends with
  | parent declared => exact .parent (hparent declared)
  | further declared _ ih => exact .further (hparent declared) ih

/-- New entries relate no fewer types. -/
theorem Below.mono (hkept : pool.KeptBy later) (hbelow : pool.Below a b) : later.Below a b := by
  induction hbelow with
  | refl type => exact .refl type
  | never type => exact .never type
  | int aForm bForm wider => exact .int (hkept.form? aForm) (hkept.form? bForm) wider
  | float aForm bForm wider => exact .float (hkept.form? aForm) (hkept.form? bForm) wider
  | nominal descends => exact .nominal (descends.mono hkept)
  | tuple aForm bForm arity nonempty _ ih =>
    exact .tuple (hkept.form? aForm) (hkept.form? bForm) arity nonempty ih
  | record pick aForm bForm nonempty present _ ih =>
    exact .record pick (hkept.form? aForm) (hkept.form? bForm) nonempty present ih

theorem Descends.of_later (hpool : pool.WellFormed) (hkept : pool.KeptBy later)
    (hknown : pool.contains a) (hdescends : later.Descends a b) : pool.Descends a b := by
  induction hdescends with
  | parent declared => exact .parent (hkept.parent?_eq hknown ▸ declared)
  | further declared _ ih =>
    rw [hkept.parent?_eq hknown] at declared
    obtain ⟨form, hform, hparent⟩ := exists_form?_of_parent? declared
    exact .further declared
      (ih (hpool.contains_of_mem_mentions hform (Form.mem_mentions_of_parent? hparent)))

/-- New entries relate no more of the old types either: the order looks at parts
    only, and those are older still. -/
theorem Below.of_later (hpool : pool.WellFormed) (hkept : pool.KeptBy later)
    (ha : pool.contains a) (hb : pool.contains b) (hbelow : later.Below a b) :
    pool.Below a b := by
  have hpart : ∀ {type part : Ty} {form : Form}, pool.form? type = some form →
      part ∈ form.components → pool.contains part := fun hform hmem =>
    hpool.contains_of_mem_mentions hform (Form.mem_mentions_of_mem_components hmem)
  induction hbelow with
  | refl type => exact .refl type
  | never type => exact .never type
  | int aForm bForm wider =>
    rw [hkept.form?_eq ha] at aForm
    rw [hkept.form?_eq hb] at bForm
    exact .int aForm bForm wider
  | float aForm bForm wider =>
    rw [hkept.form?_eq ha] at aForm
    rw [hkept.form?_eq hb] at bForm
    exact .float aForm bForm wider
  | nominal descends => exact .nominal (descends.of_later hpool hkept ha)
  | tuple aForm bForm arity nonempty _ ih =>
    rw [hkept.form?_eq ha] at aForm
    rw [hkept.form?_eq hb] at bForm
    exact .tuple aForm bForm arity nonempty fun index x y hx hy => ih index x y hx hy
      (hpart aForm (List.mem_of_getElem? hx)) (hpart bForm (List.mem_of_getElem? hy))
  | record pick aForm bForm nonempty present _ ih =>
    rw [hkept.form?_eq ha] at aForm
    rw [hkept.form?_eq hb] at bForm
    exact .record pick aForm bForm nonempty present fun name y hy => ih name y hy
      (hpart aForm (List.mem_map.mpr ⟨_, present name y hy, rfl⟩))
      (hpart bForm (List.mem_map.mpr ⟨_, hy, rfl⟩))

theorem Descends.renamed {rename : Ty → Ty} (hrenamed : pool.RenamedTo later rename pool.size)
    (hdescends : pool.Descends a b) : later.Descends (rename a) (rename b) := by
  have hparent : ∀ {type parent : Ty}, pool.parent? type = some parent →
      later.parent? (rename type) = some (rename parent) := by
    intro type parent hparent
    obtain ⟨form, hform, hdeclared⟩ := exists_form?_of_parent? hparent
    rw [parent?, hrenamed.form? hform, Option.bind_some, Form.parent?_rename, hdeclared,
      Option.map_some]
  induction hdescends with
  | parent declared => exact .parent (hparent declared)
  | further declared _ ih => exact .further (hparent declared) ih

/-- The order does not depend on the numbers of the types, except for that of
    `never`. -/
theorem Below.renamed {rename : Ty → Ty} (hrenamed : pool.RenamedTo later rename pool.size)
    (hnever : rename .never = .never) (hbelow : pool.Below a b) :
    later.Below (rename a) (rename b) := by
  induction hbelow with
  | refl type => exact .refl _
  | never type =>
    rw [hnever]
    exact .never _
  | int aForm bForm wider => exact .int (hrenamed.form? aForm) (hrenamed.form? bForm) wider
  | float aForm bForm wider => exact .float (hrenamed.form? aForm) (hrenamed.form? bForm) wider
  | nominal descends => exact .nominal (descends.renamed hrenamed)
  | tuple aForm bForm arity nonempty _ ih =>
    refine .tuple (hrenamed.form? aForm) (hrenamed.form? bForm) (by simpa using arity)
      (by simpa using nonempty) fun index x y hx hy => ?_
    rw [List.getElem?_map] at hx hy
    obtain ⟨low, hlow, rfl⟩ := Option.map_eq_some_iff.mp hx
    obtain ⟨high, hhigh, rfl⟩ := Option.map_eq_some_iff.mp hy
    exact ih index low high hlow hhigh
  | record pick aForm bForm nonempty present _ ih =>
    refine .record (fun name => rename (pick name)) (hrenamed.form? aForm) (hrenamed.form? bForm)
      (by simpa using nonempty) (fun name type hmem => ?_) fun name type hmem => ?_
    · obtain ⟨field, hfield, heq⟩ := List.mem_map.mp hmem
      cases heq
      exact List.mem_map.mpr ⟨_, present field.1 field.2 hfield, rfl⟩
    · obtain ⟨field, hfield, heq⟩ := List.mem_map.mp hmem
      cases heq
      exact ih field.1 field.2 hfield

/-- What a pool says about the order of its types it says for good. -/
theorem WellFormed.isSubtype_eq (hpool : pool.WellFormed) (hlater : later.WellFormed)
    (hkept : pool.KeptBy later) (ha : pool.contains a) (hb : pool.contains b) :
    later.isSubtype a b = pool.isSubtype a b := by
  rw [Bool.eq_iff_iff, hlater.isSubtype_iff, hpool.isSubtype_iff]
  exact ⟨Below.of_later hpool hkept ha hb, Below.mono hkept⟩

end Pool

end OrPattern
