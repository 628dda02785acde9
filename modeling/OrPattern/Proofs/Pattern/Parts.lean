import OrPattern.Pattern
import OrPattern.Path
import OrPattern.Ty.View

namespace OrPattern

/-- The step as a path holds it. -/
def Step.clip : Step → Step
  | .element index => .element (clipIndex index)
  | step => step

namespace Pattern

/-- The subpatterns of a variant, tuple or record, each with the step to it; the
    path to the place where it is tested holds the step clipped. Other patterns
    have none: the alternatives of an or-pattern are all tested at its own place. -/
def parts : Pattern → List (Step × Pattern)
  | variant _ inner _ => [(.payload, inner)]
  | tuple elements _ => elements.zipIdx.map fun (element, index) => (.element index, element)
  | record fields _ _ => fields.map fun field => (.field field.name, field.pattern)
  | _ => []

def isBranch : Pattern → Bool
  | variant .. | tuple .. | record .. => true
  | _ => false

/-- The alternatives that a pattern is compiled as. -/
def alternatives : Pattern → List Pattern
  | or alternatives _ => alternatives
  | pattern => [pattern]

/-- What a type gives to the part of a node one step away. -/
def partType? (pool : Pool) (expected : Ty) : Pattern → Step → Option Ty
  | variant tag _ _, .payload => pool.payload? expected tag
  | tuple .., .element index => (pool.elements? expected).bind fun types => types[index]?
  | record .., .field name => pool.field? expected name
  | _, _ => none

/-- Whether a node describes values of a type, whatever its parts do. -/
def Fits (pool : Pool) (expected : Ty) : Pattern → Prop
  | wildcard _ | bind .. | or .. => True
  | literal value _ => pool.literalFits expected value
  | variant tag _ _ => (pool.payload? expected tag).isSome
  | tuple elements _ =>
    ∃ types, pool.elements? expected = some types ∧ types.length = elements.length
  | record fields rest _ =>
    ∃ types, pool.fields? expected = some types ∧
      (∀ field ∈ fields, field.name ∈ types.map Prod.fst) ∧
      (rest = false → ∀ field ∈ types, field.1 ∈ fields.map FieldOf.name)

/-- Laid over a type, a pattern has this node at a place of this type. -/
inductive Reaches (pool : Pool) : Ty → Pattern → Ty → Pattern → Prop where
  | self (type : Ty) (pattern : Pattern) : Reaches pool type pattern type pattern
  | part {type partType place : Ty} {pattern part node : Pattern} {step : Step}
      (mem : (step, part) ∈ pattern.parts) (typed : pattern.partType? pool type step = some partType)
      (rest : Reaches pool partType part place node) : Reaches pool type pattern place node
  | alternative {type place : Ty} {alternatives : List Pattern} {alternative node : Pattern}
      {span : Span} (mem : alternative ∈ alternatives)
      (rest : Reaches pool type alternative place node) :
      Reaches pool type (or alternatives span) place node

theorem mem_parts_tuple {elements : List Pattern} {span : Span} {part : Step × Pattern} :
    part ∈ (tuple elements span).parts ↔
      ∃ index, part.1 = .element index ∧ elements[index]? = some part.2 := by
  obtain ⟨step, pattern⟩ := part
  constructor
  · intro hmem
    obtain ⟨⟨element, index⟩, hindex, heq⟩ := List.mem_map.mp hmem
    cases heq
    exact ⟨index, rfl, List.mk_mem_zipIdx_iff_getElem?.mp hindex⟩
  · rintro ⟨index, hstep, helement⟩
    cases hstep
    exact List.mem_map.mpr ⟨(pattern, index), List.mk_mem_zipIdx_iff_getElem?.mpr helement, rfl⟩

theorem nodeCount_le_nodeCountList {pattern : Pattern} {patterns : List Pattern}
    (hmem : pattern ∈ patterns) : pattern.nodeCount ≤ nodeCountList patterns := by
  induction patterns with
  | nil => exact absurd hmem List.not_mem_nil
  | cons first rest ih =>
    simp only [nodeCountList]
    rcases List.mem_cons.mp hmem with rfl | hrest
    · omega
    · have := ih hrest
      omega

theorem nodeCount_le_nodeCountFields {field : FieldOf Pattern} {fields : List (FieldOf Pattern)}
    (hmem : field ∈ fields) : field.pattern.nodeCount ≤ nodeCountFields fields := by
  induction fields with
  | nil => exact absurd hmem List.not_mem_nil
  | cons first rest ih =>
    obtain ⟨name, pattern, span⟩ := first
    simp only [nodeCountFields]
    rcases List.mem_cons.mp hmem with rfl | hrest
    · exact Nat.le_add_right _ _
    · have := ih hrest
      omega

theorem nodeCount_lt_of_mem_parts {pattern : Pattern} {part : Step × Pattern}
    (hmem : part ∈ pattern.parts) : part.2.nodeCount < pattern.nodeCount := by
  cases pattern with
  | variant tag inner span =>
    cases List.mem_singleton.mp hmem
    simp only [nodeCount]
    omega
  | tuple elements span =>
    obtain ⟨index, -, helement⟩ := mem_parts_tuple.mp hmem
    have := nodeCount_le_nodeCountList (List.mem_of_getElem? helement)
    simp only [nodeCount]
    omega
  | record fields rest span =>
    obtain ⟨field, hfield, rfl⟩ := List.mem_map.mp hmem
    have := nodeCount_le_nodeCountFields hfield
    simp only [nodeCount]
    omega
  | wildcard | bind | literal | or => exact absurd hmem List.not_mem_nil

/-- Induction over patterns that treats variants, tuples and records alike. -/
theorem inductParts {motive : Pattern → Prop} (wildcard : ∀ span, motive (wildcard span))
    (bind : ∀ name ascription span, motive (bind name ascription span))
    (literal : ∀ value span, motive (literal value span))
    (branch : ∀ pattern : Pattern, pattern.isBranch → (∀ part ∈ pattern.parts, motive part.2) →
      motive pattern)
    (or : ∀ alternatives span, (∀ pattern ∈ alternatives, motive pattern) →
      motive (or alternatives span)) (pattern : Pattern) : motive pattern := by
  induction hcount : pattern.nodeCount using Nat.strongRecOn generalizing pattern with
  | _ count ih =>
    subst hcount
    have hparts : ∀ part ∈ pattern.parts, motive part.2 := fun part hmem =>
      ih _ (nodeCount_lt_of_mem_parts hmem) part.2 rfl
    cases pattern with
    | wildcard span => exact wildcard span
    | bind name ascription span => exact bind name ascription span
    | literal value span => exact literal value span
    | variant | tuple | record => exact branch _ rfl hparts
    | or alternatives span =>
      refine or alternatives span fun pattern hmem => ih _ ?_ pattern rfl
      have := nodeCount_le_nodeCountList hmem
      simp only [nodeCount]
      omega

end Pattern

end OrPattern
