import OrPattern.Procedure.Emit
import OrPattern.Proofs.Compile.Yields
import OrPattern.Proofs.Pattern.Parts
import OrPattern.Shape.Certify

namespace OrPattern

variable {α : Type} [Append α]

/-- What the parts of a pattern give one after the other, put together. -/
inductive Gathers (visit : Step → Pattern → Except Rejection α) (empty : α) :
    List (Step × Pattern) → α → Prop where
  | nil : Gathers visit empty [] empty
  | cons {step : Step} {pattern : Pattern} {parts : List (Step × Pattern)} {first others : α}
      (head : visit step pattern = .ok first) (tail : Gathers visit empty parts others) :
      Gathers visit empty ((step, pattern) :: parts) (first ++ others)

variable {visit : Step → Pattern → Except Rejection α} {empty result : α}

theorem gathers_nil_iff : Gathers visit empty [] result ↔ empty = result := by
  constructor
  · intro h
    cases h
    rfl
  · rintro rfl
    exact .nil

theorem gathers_cons_iff {step : Step} {pattern : Pattern} {parts : List (Step × Pattern)} :
    Gathers visit empty ((step, pattern) :: parts) result ↔
      ∃ first, visit step pattern = .ok first ∧ ∃ others, Gathers visit empty parts others ∧
        first ++ others = result := by
  constructor
  · intro h
    cases h with
    | cons head tail => exact ⟨_, head, _, tail, rfl⟩
  · rintro ⟨first, head, others, tail, rfl⟩
    exact .cons head tail

theorem exists_gathers {parts : List (Step × Pattern)}
    (hparts : ∀ part ∈ parts, ∃ found, visit part.1 part.2 = .ok found) :
    ∃ result, Gathers visit empty parts result := by
  induction parts with
  | nil => exact ⟨empty, .nil⟩
  | cons part rest ih =>
    obtain ⟨first, hfirst⟩ := hparts part List.mem_cons_self
    obtain ⟨others, hothers⟩ := ih fun other hmem => hparts other (List.mem_cons_of_mem part hmem)
    exact ⟨first ++ others, .cons hfirst hothers⟩

/-- Each part has a result of its own. -/
theorem Gathers.exists_part {parts : List (Step × Pattern)}
    (hgathers : Gathers visit empty parts result) {part : Step × Pattern} (hmem : part ∈ parts) :
    ∃ found, visit part.1 part.2 = .ok found := by
  induction hgathers with
  | nil => exact absurd hmem List.not_mem_nil
  | cons head _ ih =>
    rcases List.mem_cons.mp hmem with rfl | hmem
    · exact ⟨_, head⟩
    · exact ih hmem

/-- What holds of every part's result, of none and of two put together holds of
    the whole. -/
theorem Gathers.fold {P : α → Prop} {parts : List (Step × Pattern)}
    (hgathers : Gathers visit empty parts result) (hempty : P empty)
    (happend : ∀ a b, P a → P b → P (a ++ b))
    (hparts : ∀ part ∈ parts, ∀ found, visit part.1 part.2 = .ok found → P found) : P result := by
  induction hgathers with
  | nil => exact hempty
  | cons head _ ih =>
    refine happend _ _ (hparts _ List.mem_cons_self _ head) (ih fun part hmem => ?_)
    exact hparts part (List.mem_cons_of_mem _ hmem)

namespace EmitContext

variable {context : EmitContext} {path : Path} {span : Span}

theorem slot_eq_ok_iff {name : Name} {slot : Slot} :
    context.slot name path span = .ok slot ↔
      ∃ site exposed, context.evidence.site? name context.alternative = some site ∧
        context.environment.type? name = some exposed ∧
        ⟨name, path, site.effective, exposed, .between site.effective exposed⟩ = slot := by
  unfold EmitContext.slot
  cases context.evidence.site? name context.alternative with
  | none => simp
  | some site =>
    cases context.environment.type? name with
    | none => simp
    | some exposed => simp

theorem nestedCheck_eq_ok_iff {check : Check} :
    context.nestedCheck path span = .ok check ↔
      ∃ compiled, context.evidence.nested? context.alternative path = some compiled ∧
        .firstOf path (compiled.procedure.retarget context.environment) = check := by
  unfold EmitContext.nestedCheck
  cases context.evidence.nested? context.alternative path with
  | none => simp
  | some compiled => simp

end EmitContext

namespace Pattern

/-- The test that a variant makes on top of those of its payload. -/
def ownParts (path : Path) : Pattern → ArmParts
  | variant tag _ _ => { checks := [.tag path tag] }
  | _ => {}

/-- The step of a position that goes with a step of a path below this node. -/
def positionStep : Pattern → Step → PositionStep
  | variant tag _ _, .payload => .payload tag
  | _, .payload => .payload .empty
  | _, .element index => .element index
  | _, .field name => .field name

/-- The shape that a variant, tuple or record demands at its own place. -/
def shapeClass? : Pattern → Option ShapeClass
  | literal value _ => some (.literal value.kind)
  | variant .. => some .variant
  | tuple elements _ => some (.tuple elements.length)
  | record fields rest _ => some (.record (sortByName id (fields.map FieldOf.name)) rest)
  | _ => none

/-- What a node adds to the outlines of its parts. -/
def ownOutline (path : Path) (position : Position) (pattern : Pattern) : Outline :=
  { shapes := pattern.shapeClass?.toList.map fun shape => ⟨position, path, shape, pattern.span⟩ }

variable {context : EmitContext} {path : Path} {position : Position}

theorem armPartsElements_eq_ok_iff {elements : List Pattern} {index : Nat} {found : ArmParts} :
    armPartsElements context elements index path = .ok found ↔
      Gathers (fun step part => part.armParts context (path ++ [step.clip])) {}
        ((elements.zipIdx index).map fun (element, index) => (.element index, element)) found := by
  induction elements generalizing index found with
  | nil =>
    simp only [armPartsElements, List.zipIdx_nil, List.map_nil, gathers_nil_iff]
    exact Except.pure_eq_ok_iff
  | cons element rest ih =>
    simp only [armPartsElements, Except.bind_eq_ok_iff, Except.pure_eq_ok_iff, List.zipIdx_cons,
      List.map_cons, gathers_cons_iff, Step.clip, ih]

theorem armPartsFields_eq_ok_iff {fields : List (FieldOf Pattern)} {found : ArmParts} :
    armPartsFields context fields path = .ok found ↔
      Gathers (fun step part => part.armParts context (path ++ [step.clip])) {}
        (fields.map fun field => (.field field.name, field.pattern)) found := by
  induction fields generalizing found with
  | nil =>
    simp only [armPartsFields, List.map_nil, gathers_nil_iff]
    exact Except.pure_eq_ok_iff
  | cons field rest ih =>
    obtain ⟨name, pattern, span⟩ := field
    simp only [armPartsFields, Except.bind_eq_ok_iff, Except.pure_eq_ok_iff, List.map_cons,
      gathers_cons_iff, Step.clip, ih]

/-- A variant, tuple or record makes its own test and those of its parts. -/
theorem armParts_branch_eq_ok_iff {pattern : Pattern} (hbranch : pattern.isBranch)
    {found : ArmParts} :
    pattern.armParts context path = .ok found ↔
      ∃ inner, Gathers (fun step part => part.armParts context (path ++ [step.clip])) {}
        pattern.parts inner ∧ pattern.ownParts path ++ inner = found := by
  cases pattern with
  | variant tag inner span =>
    simp only [armParts, Except.bind_eq_ok_iff, Except.pure_eq_ok_iff, parts, gathers_cons_iff,
      gathers_nil_iff, Step.clip, ownParts]
    constructor
    · rintro ⟨first, hfirst, rfl⟩
      exact ⟨first, ⟨first, hfirst, {}, rfl,
        congr (congrArg ArmParts.mk (List.append_nil _)) (List.append_nil _)⟩, rfl⟩
    · rintro ⟨_, ⟨first, hfirst, _, rfl, rfl⟩, rfl⟩
      refine ⟨first, hfirst, congrArg _ ?_⟩
      exact (congr (congrArg ArmParts.mk (List.append_nil _)) (List.append_nil _)).symm
  | tuple elements span =>
    simp only [armParts, armPartsElements_eq_ok_iff, parts, ownParts]
    constructor
    · exact fun h => ⟨found, h, rfl⟩
    · rintro ⟨_, h, rfl⟩
      exact h
  | record fields rest span =>
    simp only [armParts, armPartsFields_eq_ok_iff, parts, ownParts]
    constructor
    · exact fun h => ⟨found, h, rfl⟩
    · rintro ⟨_, h, rfl⟩
      exact h
  | wildcard | bind | literal | or => cases hbranch

theorem outlineElements_eq_ok_iff {elements node : List Pattern} {span : Span} {index : Nat}
    {found : Outline} :
    outlineElements elements index path position = .ok found ↔
      Gathers (fun step part => part.outline (path ++ [step.clip])
          (position ++ [(tuple node span).positionStep step.clip])) {}
        ((elements.zipIdx index).map fun (element, index) => (.element index, element)) found := by
  induction elements generalizing index found with
  | nil =>
    simp only [outlineElements, List.zipIdx_nil, List.map_nil, gathers_nil_iff]
    exact Except.pure_eq_ok_iff
  | cons element rest ih =>
    simp only [outlineElements, Except.bind_eq_ok_iff, Except.pure_eq_ok_iff, List.zipIdx_cons,
      List.map_cons, gathers_cons_iff, ih, Step.clip, positionStep]

theorem outlineFields_eq_ok_iff {fields : List (FieldOf Pattern)} {found : Outline}
    {node : List (FieldOf Pattern)} {rest : Bool} {span : Span} :
    outlineFields fields path position = .ok found ↔
      Gathers (fun step part => part.outline (path ++ [step.clip])
          (position ++ [(record node rest span).positionStep step.clip])) {}
        (fields.map fun field => (.field field.name, field.pattern)) found := by
  induction fields generalizing found with
  | nil =>
    simp only [outlineFields, List.map_nil, gathers_nil_iff]
    exact Except.pure_eq_ok_iff
  | cons field others ih =>
    obtain ⟨name, pattern, place⟩ := field
    simp only [outlineFields, Except.bind_eq_ok_iff, Except.pure_eq_ok_iff, List.map_cons,
      gathers_cons_iff, ih, Step.clip, positionStep]

/-- A variant, tuple or record demands its own shape and those of its parts. -/
theorem outline_branch_eq_ok_iff {pattern : Pattern} (hbranch : pattern.isBranch)
    {found : Outline} :
    pattern.outline path position = .ok found ↔
      ∃ inner, Gathers (fun step part => part.outline (path ++ [step.clip])
          (position ++ [pattern.positionStep step.clip])) {} pattern.parts inner ∧
        pattern.ownOutline path position ++ inner = found := by
  cases pattern with
  | variant tag inner span =>
    simp only [outline, Except.bind_eq_ok_iff, Except.pure_eq_ok_iff, parts, gathers_cons_iff,
      gathers_nil_iff, Step.clip, positionStep]
    constructor
    · rintro ⟨first, hfirst, rfl⟩
      exact ⟨first, ⟨first, hfirst, {}, rfl,
        congr (congrArg Outline.mk (List.append_nil _)) (List.append_nil _)⟩, rfl⟩
    · rintro ⟨_, ⟨first, hfirst, _, rfl, rfl⟩, rfl⟩
      refine ⟨first, hfirst, congrArg _ ?_⟩
      exact (congr (congrArg Outline.mk (List.append_nil _)) (List.append_nil _)).symm
  | tuple elements span =>
    simp only [outline, Except.bind_eq_ok_iff, Except.pure_eq_ok_iff]
    exact exists_congr fun inner => and_congr_left' outlineElements_eq_ok_iff
  | record fields rest span =>
    simp only [outline, Except.bind_eq_ok_iff, Except.pure_eq_ok_iff]
    exact exists_congr fun inner => and_congr_left' outlineFields_eq_ok_iff
  | wildcard | bind | literal | or => cases hbranch

end Pattern

end OrPattern
