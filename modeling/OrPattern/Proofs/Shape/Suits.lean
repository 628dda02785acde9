import OrPattern.Proofs.Name.Ascending
import OrPattern.Proofs.Pattern.Gather
import OrPattern.Proofs.Pattern.Nodes
import OrPattern.Proofs.Pattern.Typed

namespace OrPattern

namespace Pool

/-- The type of a component, given the type and the step to it. -/
def component? (pool : Pool) (type : Ty) : PositionStep → Option Ty
  | .payload tag => pool.payload? type tag
  | .element index => (pool.elements? type).bind fun types => types[index]?
  | .field name => pool.field? type name

/-- The type at a position. -/
def typeAt? (pool : Pool) (type : Ty) : Position → Option Ty
  | [] => some type
  | step :: rest => (pool.component? type step).bind fun component => pool.typeAt? component rest

end Pool

/-- The literals that types of this form have. -/
def Form.literalKind? : Form → Option LiteralKind
  | .int _ => some .int
  | .bool => some .bool
  | .char => some .char
  | .str => some .str
  | _ => none

/-- Values of a type of this form can have the shape. -/
def ShapeClass.Suits : Form → ShapeClass → Prop
  | form, .literal kind => form.literalKind? = some kind
  | .enumDecl .., .variant => True
  | .tuple types, .tuple arity => types.length = arity
  | .record types, .record fields rest =>
    AscendingByName id fields ∧ (∀ name ∈ fields, name ∈ types.map Prod.fst) ∧
      (rest = false → ∀ field ∈ types, field.1 ∈ fields)
  | _, _ => False

namespace ShapeClass

/-- Two record shapes of one record type go with each other. -/
theorem compatible_record {types : List (Name × Ty)} {fields others : List Name}
    {rest otherRest : Bool} (hfields : (record fields rest).Suits (.record types))
    (hothers : (record others otherRest).Suits (.record types)) :
    (record fields rest).compatible (record others otherRest) := by
  obtain ⟨hascending, hdeclared, hclosed⟩ := hfields
  obtain ⟨hascending', hdeclared', hclosed'⟩ := hothers
  have hwithin : otherRest = false → ∀ name ∈ fields, name ∈ others := by
    intro hfalse name hmem
    obtain ⟨field, hfield, rfl⟩ := List.mem_map.mp (hdeclared name hmem)
    exact hclosed' hfalse field hfield
  have hwithin' : rest = false → ∀ name ∈ others, name ∈ fields := by
    intro hfalse name hmem
    obtain ⟨field, hfield, rfl⟩ := List.mem_map.mp (hdeclared' name hmem)
    exact hclosed hfalse field hfield
  cases rest with
  | false =>
    cases otherRest with
    | false =>
      have hsame : fields = others := hascending.eq_of_mem_iff hascending' fun name =>
        ⟨hwithin rfl name, hwithin' rfl name⟩
      simpa [compatible] using hsame
    | true => simpa [compatible] using hwithin' rfl
  | true =>
    cases otherRest with
    | false => simpa [compatible] using hwithin rfl
    | true => rfl

/-- Shapes that values of one type can have go with each other. -/
theorem compatible_of_suits {form : Form} {shape other : ShapeClass} (hshape : shape.Suits form)
    (hother : other.Suits form) : shape.compatible other := by
  cases form with
  | int | bool | char | str =>
    cases shape with
    | literal kind =>
      cases other with
      | literal otherKind =>
        have hsame : kind = otherKind := Option.some.inj (hshape.symm.trans hother)
        simpa [compatible] using hsame
      | variant | tuple | record => cases hother
    | variant | tuple | record => cases hshape
  | enumDecl name parent variants =>
    cases shape with
    | variant =>
      cases other with
      | variant => rfl
      | literal | tuple | record => cases hother
    | literal | tuple | record => cases hshape
  | tuple types =>
    cases shape with
    | tuple arity =>
      cases other with
      | tuple otherArity =>
        have hsame : arity = otherArity := hshape.symm.trans hother
        simpa [compatible] using hsame
      | literal | variant | record => cases hother
    | literal | variant | record => cases hshape
  | record types =>
    cases shape with
    | record fields rest =>
      cases other with
      | record others otherRest => exact compatible_record hshape hother
      | literal | variant | tuple => cases hother
    | literal | variant | tuple => cases hshape
  | float | never | classDecl => cases shape <;> cases hshape

end ShapeClass

namespace Pattern

variable {pool : Pool} {expected : Ty} {pattern : Pattern}

theorem partType?_eq_component? (hdistinct : pattern.StepsDistinct) {part : Step × Pattern}
    (hmem : part ∈ pattern.parts) :
    pattern.partType? pool expected part.1 =
      pool.component? expected (pattern.positionStep part.1.clip) := by
  rw [clip_eq_of_mem_parts hdistinct hmem]
  cases pattern with
  | variant tag inner span =>
    cases List.mem_singleton.mp hmem
    rfl
  | tuple elements span =>
    obtain ⟨index, hstep, -⟩ := mem_parts_tuple.mp hmem
    rw [hstep]
    rfl
  | record fields rest span =>
    obtain ⟨field, -, rfl⟩ := List.mem_map.mp hmem
    rfl
  | wildcard | bind | literal | or => exact absurd hmem List.not_mem_nil

/-- A node that fits a type finds a type for each of its parts. -/
theorem exists_partType? (hfits : pattern.Fits pool expected) {part : Step × Pattern}
    (hmem : part ∈ pattern.parts) : ∃ type, pattern.partType? pool expected part.1 = some type := by
  cases pattern with
  | variant tag inner span =>
    cases List.mem_singleton.mp hmem
    exact Option.isSome_iff_exists.mp hfits
  | tuple elements span =>
    obtain ⟨index, hstep, helement⟩ := mem_parts_tuple.mp hmem
    obtain ⟨types, htypes, harity⟩ := hfits
    have hlt : index < types.length := harity ▸ (List.getElem?_eq_some_iff.mp helement).choose
    refine ⟨types[index], ?_⟩
    rw [hstep, partType?, htypes, Option.bind_some, List.getElem?_eq_getElem hlt]
  | record fields rest span =>
    obtain ⟨field, hfield, rfl⟩ := List.mem_map.mp hmem
    obtain ⟨types, htypes, hdeclared, -⟩ := hfits
    obtain ⟨type, htype⟩ := Option.isSome_iff_exists.mp
      (lookup_isSome_iff_mem.mpr (hdeclared field hfield))
    refine ⟨type, ?_⟩
    simp only [partType?, Pool.field?, htypes, Option.bind_some, htype]
  | wildcard | bind | literal | or => exact absurd hmem List.not_mem_nil

/-- A node that fits a type demands a shape that its values can have. -/
theorem suits_of_fits {shape : ShapeClass} (hfits : pattern.Fits pool expected)
    (hshape : pattern.shapeClass? = some shape) :
    ∃ form, pool.form? expected = some form ∧ shape.Suits form := by
  cases pattern with
  | literal value span =>
    cases hshape
    simp only [Fits, Pool.literalFits] at hfits
    split at hfits
    · next hform => exact ⟨_, hform, rfl⟩
    · next hform => exact ⟨_, hform, rfl⟩
    · next hform => exact ⟨_, hform, rfl⟩
    · next hform => exact ⟨_, hform, rfl⟩
    · cases hfits
  | variant tag inner span =>
    cases hshape
    obtain ⟨payload, hpayload⟩ := Option.isSome_iff_exists.mp hfits
    obtain ⟨variants, hvariants, -⟩ := Option.bind_eq_some_iff.mp hpayload
    obtain ⟨name, parent, hform⟩ := Pool.variants?_eq_some hvariants
    exact ⟨_, hform, trivial⟩
  | tuple elements span =>
    cases hshape
    obtain ⟨types, htypes, harity⟩ := hfits
    exact ⟨_, Pool.elements?_eq_some htypes, harity⟩
  | record fields rest span =>
    cases hshape
    obtain ⟨types, htypes, hdeclared, hclosed⟩ := hfits
    refine ⟨_, Pool.fields?_eq_some htypes, ascendingByName_sortByName _ _, fun name hmem => ?_,
      fun hfalse field hfield => mem_sortByName_iff.mpr (hclosed hfalse field hfield)⟩
    obtain ⟨field, hfield, rfl⟩ := List.mem_map.mp (mem_sortByName_iff.mp hmem)
    exact hdeclared field hfield
  | wildcard | bind | or => cases hshape

end Pattern

end OrPattern
