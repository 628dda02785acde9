import OrPattern.Pattern.Accepts
import OrPattern.Proofs.Pattern.Typed
import OrPattern.Value.Shaped

namespace OrPattern

/-- What two parts bind together, if both accept. -/
def bothCaptures {α : Type} (first others : Option (List α)) : Option (List α) :=
  first.bind fun xs => others.map fun ys => xs ++ ys

@[simp] theorem bothCaptures_isSome {α : Type} (first others : Option (List α)) :
    (bothCaptures first others).isSome = (first.isSome && others.isSome) := by
  cases first <;> cases others <;> rfl

@[simp] theorem bothCaptures_nil_left {α : Type} (others : Option (List α)) :
    bothCaptures (some []) others = others := by
  cases others <;> rfl

namespace Value.Shaped

variable {pool : Pool} {expected : Ty} {value : Value}

/-- A value over an enum is one of its variants. -/
theorem exists_variant {variants : List (Name × Ty)} (hshaped : value.Shaped pool expected)
    (hvariants : pool.variants? expected = some variants) :
    ∃ tag payload payloadType, value = .variant tag payload ∧
      variants.lookup tag = some payloadType ∧ payload.Shaped pool payloadType := by
  obtain ⟨_, _, hform⟩ := Pool.variants?_eq_some hvariants
  cases hshaped with
  | variant declared tagged inner =>
    cases hvariants.symm.trans declared
    exact ⟨_, _, _, rfl, tagged, inner⟩
  | tuple declared _ _ => cases hform.symm.trans (Pool.elements?_eq_some declared)
  | record declared _ _ => cases hform.symm.trans (Pool.fields?_eq_some declared)
  | other noVariants _ _ => cases hvariants.symm.trans noVariants

/-- A value over a tuple has all of its elements. -/
theorem exists_tuple {types : List Ty} (hshaped : value.Shaped pool expected)
    (htypes : pool.elements? expected = some types) :
    ∃ values, value = .tuple values ∧ types.length = values.length ∧
      ∀ (index : Nat) elementType element, types[index]? = some elementType →
        values[index]? = some element → element.Shaped pool elementType := by
  have hform := Pool.elements?_eq_some htypes
  cases hshaped with
  | tuple declared arity inner =>
    cases htypes.symm.trans declared
    exact ⟨_, rfl, arity, inner⟩
  | variant declared _ _ =>
    obtain ⟨_, _, hdeclared⟩ := Pool.variants?_eq_some declared
    cases hform.symm.trans hdeclared
  | record declared _ _ => cases hform.symm.trans (Pool.fields?_eq_some declared)
  | other _ noElements _ => cases htypes.symm.trans noElements

/-- A value over a record has all of its fields. -/
theorem exists_record {types : List (Name × Ty)} (hshaped : value.Shaped pool expected)
    (htypes : pool.fields? expected = some types) :
    ∃ fields, value = .record fields ∧ (∀ field ∈ types, (fields.lookup field.1).isSome) ∧
      ∀ name fieldType field, (name, fieldType) ∈ types → fields.lookup name = some field →
        field.Shaped pool fieldType := by
  have hform := Pool.fields?_eq_some htypes
  cases hshaped with
  | record declared present inner =>
    cases htypes.symm.trans declared
    exact ⟨_, rfl, present, inner⟩
  | variant declared _ _ =>
    obtain ⟨_, _, hdeclared⟩ := Pool.variants?_eq_some declared
    cases hform.symm.trans hdeclared
  | tuple declared _ _ => cases hform.symm.trans (Pool.elements?_eq_some declared)
  | other _ _ noFields => cases htypes.symm.trans noFields

end Value.Shaped

namespace Pattern

mutual

/-- What a pattern binds in a value that it accepts, in the order of the pattern.
    Of an or-pattern the leftmost alternative that accepts the value counts. -/
def captures : Pattern → Value → Option (List (Name × Value))
  | wildcard _, _ => some []
  | bind name _ _, value => some [(name, value)]
  | literal expected _, value => if value.matchesLiteral expected then some [] else none
  | variant tag inner _, .variant found payload =>
    if tag = found then inner.captures payload else none
  | variant .., _ => none
  | tuple elements _, .tuple values => capturesElements elements values
  | tuple .., _ => none
  | record fields _ _, value => capturesFields fields value
  | or alternatives _, value => capturesFirst alternatives value

def capturesElements : List Pattern → List Value → Option (List (Name × Value))
  | [], [] => some []
  | pattern :: patterns, value :: values =>
    bothCaptures (pattern.captures value) (capturesElements patterns values)
  | _, _ => none

def capturesFields : List (FieldOf Pattern) → Value → Option (List (Name × Value))
  | [], _ => some []
  | ⟨name, pattern, _⟩ :: rest, value =>
    bothCaptures
      (match value.project (.field name) with
        | some component => pattern.captures component
        | none => none)
      (capturesFields rest value)

/-- What the leftmost alternative binds that accepts the value. -/
def capturesFirst : List Pattern → Value → Option (List (Name × Value))
  | [], _ => none
  | alternative :: rest, value =>
    match alternative.captures value with
    | some captured => some captured
    | none => capturesFirst rest value

end

mutual

/-- A pattern binds something, if only nothing at all, in the values that it
    accepts. -/
theorem isSome_captures : ∀ (pattern : Pattern) (value : Value),
    (pattern.captures value).isSome = pattern.accepts value
  | wildcard _, _ => by simp only [captures, accepts, Option.isSome_some]
  | bind _ _ _, _ => by simp only [captures, accepts, Option.isSome_some]
  | literal expected _, value => by
    simp only [captures, accepts]
    cases value.matchesLiteral expected <;> rfl
  | variant tag inner _, value => by
    cases value with
    | variant found payload =>
      simp only [captures, accepts]
      by_cases hsame : tag = found
      · simp only [hsame, if_true, decide_true, Bool.true_and, isSome_captures inner payload]
      · simp only [hsame, if_false, decide_false, Bool.false_and, Option.isSome_none]
    | _ => simp only [captures, accepts, Option.isSome_none]
  | tuple elements _, value => by
    cases value with
    | tuple values => simp only [captures, accepts, isSome_capturesElements elements values]
    | _ => simp only [captures, accepts, Option.isSome_none]
  | record fields _ _, value => by
    simp only [captures, accepts, isSome_capturesFields fields value]
  | or alternatives _, value => by
    simp only [captures, accepts, isSome_capturesFirst alternatives value]

theorem isSome_capturesElements : ∀ (patterns : List Pattern) (values : List Value),
    (capturesElements patterns values).isSome = acceptsElements patterns values
  | [], [] => rfl
  | [], _ :: _ => rfl
  | _ :: _, [] => rfl
  | pattern :: patterns, value :: values => by
    simp only [capturesElements, acceptsElements, bothCaptures_isSome, isSome_captures pattern value,
      isSome_capturesElements patterns values]

theorem isSome_capturesFields : ∀ (fields : List (FieldOf Pattern)) (value : Value),
    (capturesFields fields value).isSome = acceptsFields fields value
  | [], _ => rfl
  | ⟨name, pattern, _⟩ :: rest, value => by
    simp only [capturesFields, acceptsFields, bothCaptures_isSome, isSome_capturesFields rest value]
    cases value.project (.field name) with
    | none => rfl
    | some component => simp only [isSome_captures pattern component]

theorem isSome_capturesFirst : ∀ (alternatives : List Pattern) (value : Value),
    (capturesFirst alternatives value).isSome = acceptsAny alternatives value
  | [], _ => rfl
  | alternative :: rest, value => by
    simp only [capturesFirst, acceptsAny, ← isSome_captures alternative value,
      ← isSome_capturesFirst rest value]
    cases alternative.captures value <;> simp

end

/-- What the parts of a node bind in the components of a value. -/
def capturesParts (value : Value) : List (Step × Pattern) → Option (List (Name × Value))
  | [] => some []
  | (step, part) :: rest =>
    bothCaptures ((value.project step).bind part.captures) (capturesParts value rest)

/-- The test of a node that does not lie with its parts. -/
def ownTest : Pattern → Value → Bool
  | variant tag _ _, .variant found _ => tag = found
  | _, _ => true

theorem capturesFields_eq (fields : List (FieldOf Pattern)) (value : Value) :
    capturesFields fields value =
      capturesParts value (fields.map fun field => (.field field.name, field.pattern)) := by
  induction fields with
  | nil => rfl
  | cons field rest ih =>
    obtain ⟨name, pattern, span⟩ := field
    simp only [capturesFields, capturesParts, List.map_cons, ih]
    cases value.project (.field name) <;> rfl

theorem capturesElements_eq {elements : List Pattern} {values all : List Value} {index : Nat}
    (harity : elements.length = values.length) (hvalues : values = all.drop index) :
    capturesElements elements values = capturesParts (.tuple all)
      ((elements.zipIdx index).map fun (element, index) => (.element index, element)) := by
  induction elements generalizing values index with
  | nil =>
    obtain rfl := List.length_eq_zero_iff.mp harity.symm
    rfl
  | cons element rest ih =>
    obtain ⟨value, values, rfl⟩ := List.exists_cons_of_length_eq_add_one harity.symm
    have hhead : all[index]? = some value := by
      rw [← List.head?_drop, ← hvalues, List.head?_cons]
    have htail : values = all.drop (index + 1) := by
      rw [← List.tail_drop, ← hvalues, List.tail_cons]
    simp only [capturesElements, List.zipIdx_cons, List.map_cons, capturesParts, Value.project, hhead,
      Option.bind_some, ih (by simpa using harity) htail]

/-- On values of the type that it fits, a node binds what its parts bind, as long
    as the value passes its own test. -/
theorem captures_branch {pool : Pool} {pattern : Pattern} {expected : Ty} {value : Value}
    (hbranch : pattern.isBranch) (hfits : pattern.Fits pool expected)
    (hshaped : value.Shaped pool expected) :
    pattern.captures value =
      if pattern.ownTest value then capturesParts value pattern.parts else none := by
  cases pattern with
  | variant tag inner span =>
    cases value with
    | variant found payload =>
      simp only [captures, ownTest, parts, capturesParts, Value.project, Option.bind_some,
        decide_eq_true_eq]
      cases inner.captures payload <;> simp [bothCaptures]
    | _ =>
      simp only [captures, ownTest, parts, capturesParts, Value.project, if_true]
      rfl
  | tuple elements span =>
    obtain ⟨types, htypes, harity⟩ := hfits
    obtain ⟨values, rfl, hlength, -⟩ := hshaped.exists_tuple htypes
    simp only [captures, ownTest, if_true, parts]
    exact capturesElements_eq (harity.symm.trans hlength) rfl
  | record fields rest span =>
    simp only [captures, ownTest, if_true, parts, capturesFields_eq]
  | wildcard | bind | literal | or => cases hbranch

/-- The components of a value have the shapes of the types of the parts. -/
theorem shaped_part {pool : Pool} {pattern : Pattern} {expected partType : Ty} {value : Value}
    {step : Step} (hshaped : value.Shaped pool expected) (htest : pattern.ownTest value)
    (htype : pattern.partType? pool expected step = some partType) :
    ∃ component, value.project step = some component ∧ component.Shaped pool partType := by
  unfold partType? at htype
  split at htype
  · next tag inner span =>
    obtain ⟨variants, hvariants, hlookup⟩ := Option.bind_eq_some_iff.mp htype
    obtain ⟨found, payload, payloadType, rfl, htagged, hpayload⟩ := hshaped.exists_variant hvariants
    obtain rfl := of_decide_eq_true htest
    cases hlookup.symm.trans htagged
    exact ⟨payload, rfl, hpayload⟩
  · next elements span index =>
    obtain ⟨types, htypes, hindex⟩ := Option.bind_eq_some_iff.mp htype
    obtain ⟨values, rfl, hlength, hvalues⟩ := hshaped.exists_tuple htypes
    have hlt := hlength ▸ (List.getElem?_eq_some_iff.mp hindex).choose
    have hvalue := List.getElem?_eq_getElem hlt
    exact ⟨_, hvalue, hvalues index partType _ hindex hvalue⟩
  · next fields rest span name =>
    obtain ⟨types, htypes, hlookup⟩ := Option.bind_eq_some_iff.mp htype
    obtain ⟨values, rfl, hpresent, hvalues⟩ := hshaped.exists_record htypes
    have hmem := mem_of_lookup hlookup
    obtain ⟨component, hcomponent⟩ := Option.isSome_iff_exists.mp (hpresent _ hmem)
    exact ⟨component, hcomponent, hvalues name partType component hmem hcomponent⟩
  · cases htype

end Pattern

variable {pool later : Pool} {expected : Ty} {value : Value}

/-- What a type promises about its values it promises in every later pool. -/
theorem Value.Shaped.mono (hpool : pool.WellFormed) (hkept : pool.KeptBy later)
    (hknown : pool.contains expected) (hshaped : value.Shaped pool expected) :
    value.Shaped later expected := by
  induction hshaped with
  | variant declared tagged _ ih =>
    obtain ⟨_, _, hform⟩ := Pool.variants?_eq_some declared
    refine .variant (hkept.variants?_eq hknown ▸ declared) tagged (ih ?_)
    refine hpool.contains_of_mem_mentions hform (List.mem_append_right _ ?_)
    exact List.mem_map.mpr ⟨_, mem_of_lookup tagged, rfl⟩
  | tuple declared arity _ ih =>
    refine .tuple (hkept.elements?_eq hknown ▸ declared) arity ?_
    intro index elementType value htype hvalue
    refine ih index elementType value htype hvalue ?_
    exact hpool.contains_of_mem_mentions (Pool.elements?_eq_some declared)
      (List.mem_of_getElem? htype)
  | record declared present _ ih =>
    refine .record (hkept.fields?_eq hknown ▸ declared) present ?_
    intro name fieldType value htype hvalue
    refine ih name fieldType value htype hvalue ?_
    exact hpool.contains_of_mem_mentions (Pool.fields?_eq_some declared)
      (List.mem_map.mpr ⟨_, htype, rfl⟩)
  | other noVariants noElements noFields =>
    exact .other (hkept.variants?_eq hknown ▸ noVariants) (hkept.elements?_eq hknown ▸ noElements)
      (hkept.fields?_eq hknown ▸ noFields)

/-- A value that a variant pattern is laid over has a tag. -/
theorem Value.Shaped.tag?_isSome {tag : Name} {inner : Pattern} {span : Span}
    (hfits : (Pattern.variant tag inner span).Fits pool expected)
    (hshaped : value.Shaped pool expected) : value.tag?.isSome := by
  obtain ⟨payload, hpayload⟩ := Option.isSome_iff_exists.mp hfits
  obtain ⟨variants, hvariants, -⟩ := Option.bind_eq_some_iff.mp hpayload
  obtain ⟨found, payload, _, rfl, -⟩ := hshaped.exists_variant hvariants
  rfl

end OrPattern
