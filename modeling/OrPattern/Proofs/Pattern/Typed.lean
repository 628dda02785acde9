import OrPattern.Proofs.Name.Lookup
import OrPattern.Proofs.Pattern.Parts
import OrPattern.Proofs.Pool.WellFormed

namespace OrPattern

namespace Pool

variable {pool later : Pool} {type : Ty}

theorem variants?_eq_some {variants : List (Name × Ty)}
    (hvariants : pool.variants? type = some variants) :
    ∃ name parent, pool.form? type = some (.enumDecl name parent variants) := by
  unfold variants? at hvariants
  split at hvariants
  · next name parent found hform =>
    cases hvariants
    exact ⟨name, parent, hform⟩
  · cases hvariants

theorem elements?_eq_some {elements : List Ty} (helements : pool.elements? type = some elements) :
    pool.form? type = some (.tuple elements) := by
  unfold elements? at helements
  split at helements
  · next found hform =>
    cases helements
    exact hform
  · cases helements

theorem fields?_eq_some {fields : List (Name × Ty)} (hfields : pool.fields? type = some fields) :
    pool.form? type = some (.record fields) := by
  unfold fields? at hfields
  split at hfields
  · next found hform =>
    cases hfields
    exact hform
  · cases hfields

namespace KeptBy

variable (hkept : pool.KeptBy later) (hknown : pool.contains type)
include hkept hknown

theorem variants?_eq : later.variants? type = pool.variants? type := by
  simp only [variants?, hkept.form?_eq hknown]

theorem elements?_eq : later.elements? type = pool.elements? type := by
  simp only [elements?, hkept.form?_eq hknown]

theorem fields?_eq : later.fields? type = pool.fields? type := by
  simp only [fields?, hkept.form?_eq hknown]

theorem literalFits_eq (literal : Literal) :
    later.literalFits type literal = pool.literalFits type literal := by
  simp only [literalFits, hkept.form?_eq hknown]

theorem payload?_eq (tag : Name) : later.payload? type tag = pool.payload? type tag := by
  simp only [payload?, hkept.variants?_eq hknown]

theorem field?_eq (field : Name) : later.field? type field = pool.field? type field := by
  simp only [field?, hkept.fields?_eq hknown]

end KeptBy

end Pool

namespace Pattern

variable {pool later : Pool} {expected partType : Ty} {pattern : Pattern} {step : Step}

theorem partType?_eq (hkept : pool.KeptBy later) (hknown : pool.contains expected)
    (pattern : Pattern) (step : Step) :
    pattern.partType? later expected step = pattern.partType? pool expected step := by
  cases pattern <;> cases step <;>
    simp only [partType?, hkept.payload?_eq hknown, hkept.elements?_eq hknown, hkept.field?_eq hknown]

theorem fits_iff (hkept : pool.KeptBy later) (hknown : pool.contains expected)
    (pattern : Pattern) : pattern.Fits later expected ↔ pattern.Fits pool expected := by
  cases pattern <;>
    simp only [Fits, hkept.literalFits_eq hknown, hkept.payload?_eq hknown,
      hkept.elements?_eq hknown, hkept.fields?_eq hknown]

/-- The type at a part is a component of the type at the node. -/
theorem partType?_mentioned (htype : pattern.partType? pool expected step = some partType) :
    ∃ form, pool.form? expected = some form ∧ partType ∈ form.mentions := by
  unfold partType? at htype
  split at htype
  · obtain ⟨variants, hvariants, hlookup⟩ := Option.bind_eq_some_iff.mp htype
    obtain ⟨name, parent, hform⟩ := Pool.variants?_eq_some hvariants
    refine ⟨_, hform, List.mem_append_right _ ?_⟩
    exact List.mem_map.mpr ⟨_, mem_of_lookup hlookup, rfl⟩
  · obtain ⟨types, htypes, hindex⟩ := Option.bind_eq_some_iff.mp htype
    exact ⟨_, Pool.elements?_eq_some htypes, List.mem_of_getElem? hindex⟩
  · obtain ⟨fields, hfields, hlookup⟩ := Option.bind_eq_some_iff.mp htype
    refine ⟨_, Pool.fields?_eq_some hfields, ?_⟩
    exact List.mem_map.mpr ⟨_, mem_of_lookup hlookup, rfl⟩
  · cases htype

theorem partType?_known (hpool : pool.WellFormed)
    (htype : pattern.partType? pool expected step = some partType) : pool.contains partType := by
  obtain ⟨form, hform, hmem⟩ := partType?_mentioned htype
  exact hpool.contains_of_mem_mentions hform hmem

namespace Reaches

variable {type place : Ty} {node : Pattern}

theorem known (hpool : pool.WellFormed) (htype : pool.contains type)
    (hreaches : Reaches pool type pattern place node) : pool.contains place := by
  induction hreaches with
  | self => exact htype
  | part _ typed _ ih => exact ih (partType?_known hpool typed)
  | alternative _ _ ih => exact ih htype

end Reaches

end Pattern

end OrPattern
