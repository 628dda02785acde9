import OrPattern.Proofs.Naming.Data
import OrPattern.Proofs.Naming.Sorted
import OrPattern.Proofs.Shape.Certify

namespace OrPattern

open HasNames (withNames)

variable {names : Name → Name} (hnames : Function.Injective names)

section Outcomes

variable {α β : Type} [HasNames α] [HasNames β]

/-- Steps in a row end alike under other names if each of them does. -/
theorem withNames_bind {attempt other : Except Rejection α}
    {next otherNext : α → Except Rejection β}
    (hattempt : other = withNames names attempt)
    (hnext : ∀ value, attempt = .ok value →
      otherNext (withNames names value) = withNames names (next value)) :
    (other >>= otherNext) = withNames names (attempt >>= next) := by
  subst hattempt
  cases attempt with
  | error rejection => rfl
  | ok value => exact hnext value rfl

theorem forM_withNames {items : List α} {check other : α → Except Rejection Unit}
    (hcheck : ∀ item ∈ items, other (withNames names item) = withNames names (check item)) :
    (withNames names items).forM other = withNames names (items.forM check) := by
  induction items with
  | nil => rfl
  | cons item rest ih =>
    obtain ⟨hitem, hrest⟩ := List.forall_mem_cons.mp hcheck
    exact withNames_bind hitem fun _ _ => ih hrest

end Outcomes

section Places

theorem Step.withNames_injective (hnames : Function.Injective names) :
    Function.Injective (withNames names : Step → Step) := by
  intro step other heq
  cases step <;> cases other <;> simp_all [withNames, hnames.eq_iff]

theorem PositionStep.withNames_injective (hnames : Function.Injective names) :
    Function.Injective (withNames names : PositionStep → PositionStep) := by
  intro step other heq
  cases step <;> cases other <;> simp_all [withNames, hnames.eq_iff]

include hnames

theorem path_eq_iff {path other : Path} :
    withNames names path = withNames names other ↔ path = other :=
  (List.map_injective_iff.mpr (Step.withNames_injective hnames)).eq_iff

theorem position_eq_iff {position other : Position} :
    withNames names position = withNames names other ↔ position = other :=
  (List.map_injective_iff.mpr (PositionStep.withNames_injective hnames)).eq_iff

end Places

/-- The mentioned fields ascend. -/
def ShapeClass.Ascending (shape : ShapeClass) : Prop :=
  ∀ ⦃fields rest⦄, shape = .record fields rest → AscendingByName id fields

/-- All shapes in the outline list their fields in ascending order. -/
def Outline.Ascending (outline : Outline) : Prop := ∀ site ∈ outline.shapes, site.shape.Ascending

theorem ShapeClass.compatible_withNames (hnames : Function.Injective names)
    {shape other : ShapeClass} (hshape : shape.Ascending) (hother : other.Ascending) :
    (withNames names shape).compatible (withNames names other) = shape.compatible other := by
  cases shape with
  | record fields rest =>
    cases other with
    | record others otherRest =>
      have hall : ∀ listed within : List Name,
          (sortByName id (listed.map names)).all (sortByName id (within.map names)).contains =
            listed.all within.contains := by
        intro listed within
        rw [Bool.eq_iff_iff, List.all_eq_true, List.all_eq_true]
        simp only [List.contains_iff_mem, mem_sortByName_iff, List.forall_mem_map,
          List.mem_map_of_injective hnames]
      have heq : sortByName id (fields.map names) = sortByName id (others.map names) ↔
          fields = others := @sortByName_map_eq_iff _ _ id _ _ names hnames id names (fun _ => rfl)
        hnames (hshape rfl) (hother rfl)
      cases rest <;> cases otherRest
      · exact decide_eq_decide.mpr heq
      · exact hall others fields
      · exact hall fields others
      · rfl
    | _ => cases rest <;> rfl
  | _ => cases other <;> rfl

namespace Outline

variable (names) (outline : Outline)

protected theorem withNames_append (outline other : Outline) :
    withNames names (outline ++ other) = withNames names outline ++ withNames names other :=
  congrArg₂ Outline.mk List.map_append List.map_append

variable {names}
include hnames

theorem binding?_withNames (name : Name) : (withNames names outline).binding? (names name) =
    (outline.binding? name).map (withNames names) := by
  simp only [binding?, withNames, List.find?_map, Function.comp_def, hnames.eq_iff]

theorem shapeAt?_withNames (position : Position) :
    (withNames names outline).shapeAt? (withNames names position) =
      (outline.shapeAt? position).map (withNames names) := by
  have hsites : (withNames names outline.shapes).filter (fun site =>
        site.position = withNames names position) =
      withNames names (outline.shapes.filter fun site => site.position = position) := by
    refine List.filter_map.trans (congrArg _ (List.filter_congr fun site _ => ?_))
    exact decide_eq_decide.mpr (position_eq_iff hnames)
  exact (congrArg List.getLast? hsites).trans List.getLast?_map

theorem checkRepeats_withNames (alternative : Nat) (span : Span) :
    (withNames names outline).checkRepeats alternative span =
      withNames names (outline.checkRepeats alternative span) := by
  have hrepeated : ∀ seen rest : List Occurrence,
      Occurrence.firstRepeated (withNames names seen) (withNames names rest) =
        (Occurrence.firstRepeated seen rest).map (withNames names) := by
    intro seen rest
    induction rest generalizing seen with
    | nil => rfl
    | cons occurrence rest ih =>
      have ih := ih (seen ++ [occurrence])
      simp only [withNames, List.map_append, List.map_cons, List.map_nil] at ih ⊢
      simp only [Occurrence.firstRepeated, List.find?_map, Function.comp_def, hnames.eq_iff, ih]
      cases seen.find? fun earlier => earlier.name = occurrence.name <;> rfl
  have hhere : Occurrence.firstRepeated [] (withNames names outline).bindings = _ :=
    hrepeated [] outline.bindings
  rw [checkRepeats, checkRepeats, hhere]
  cases Occurrence.firstRepeated [] outline.bindings <;> rfl

end Outline

namespace Outlined

variable {first other : Outlined} {span : Span}

include hnames

theorem checkNames_withNames (first other : Outlined) (span : Span) :
    (withNames names first).checkNames (withNames names other) span =
      withNames names (first.checkNames other span) := by
  refine withNames_bind (forM_withNames fun expected _ => ?_) fun _ _ =>
    forM_withNames fun extra _ => ?_
  · have hbinding := other.outline.binding?_withNames hnames expected.name
    simp only [withNames] at hbinding ⊢
    simp only [checkBinding, hbinding]
    cases other.outline.binding? expected.name with
    | none => rfl
    | some found =>
      have hpath : withNames names found.path = withNames names expected.path ↔
          found.path = expected.path := path_eq_iff hnames
      simp only [withNames] at hpath
      simp only [Option.map_some, hpath]
      split <;> rfl
  · have hbinding := first.outline.binding?_withNames hnames extra.name
    simp only [withNames] at hbinding ⊢
    simp only [checkExtra, hbinding]
    cases first.outline.binding? extra.name <;> rfl

theorem checkShapes_withNames (hfirst : first.outline.Ascending)
    (hother : other.outline.Ascending) :
    (withNames names first).checkShapes (withNames names other) span =
      withNames names (first.checkShapes other span) := by
  refine forM_withNames fun site hmem => ?_
  have hshape := other.outline.shapeAt?_withNames hnames site.position
  simp only [withNames] at hshape ⊢
  simp only [checkShape, hshape]
  cases hfound : other.outline.shapeAt? site.position with
  | none => rfl
  | some found =>
    have hcompatible := ShapeClass.compatible_withNames hnames (hfirst site hmem)
      (hother found (List.mem_of_mem_filter (List.mem_of_getLast? hfound)))
    simp only [withNames] at hcompatible
    simp only [Option.map_some, hcompatible]
    split <;> rfl

theorem checkAllShapes_withNames {outlined : List Outlined}
    (houtlined : ∀ found ∈ outlined, found.outline.Ascending) :
    checkAllShapes span (withNames names outlined) =
      withNames names (checkAllShapes span outlined) := by
  induction outlined with
  | nil => rfl
  | cons left rest ih =>
    obtain ⟨hleft, hrest⟩ := List.forall_mem_cons.mp houtlined
    exact withNames_bind (forM_withNames fun right hmem =>
      checkShapes_withNames hnames hleft (hrest right hmem)) fun _ _ => ih hrest

theorem agree_withNames {outlined : List Outlined}
    (houtlined : ∀ found ∈ outlined, found.outline.Ascending) :
    agree span (withNames names outlined) = withNames names (agree span outlined) := by
  cases outlined with
  | nil => rfl
  | cons first rest =>
    refine withNames_bind
      (forM_withNames fun other _ => checkNames_withNames hnames first other span)
      fun _ _ => withNames_bind (checkAllShapes_withNames hnames houtlined) fun _ _ => ?_
    refine congrArg (fun bindings => Except.ok (Certificate.mk bindings)) ?_
    simp only [withNames, List.map_map, Function.comp_def]

end Outlined

namespace Pattern

variable {pattern : Pattern} {path : Path} {position : Position} {outline : Outline}

/-- Every record in an outline lists its fields in ascending order. -/
theorem ascending_outline (houtline : pattern.outline path position = .ok outline) :
    outline.Ascending := by
  induction pattern using inductParts generalizing path position outline with
  | wildcard span | bind name ascription span =>
    cases houtline
    exact nofun
  | literal value span =>
    cases houtline
    exact List.forall_mem_singleton.mpr fun _ _ => nofun
  | branch pattern hbranch ih =>
    obtain ⟨inner, hinner, rfl⟩ := (outline_branch_eq_ok_iff hbranch).mp houtline
    have hparts : inner.Ascending := hinner.fold (P := Outline.Ascending) nofun
      (fun a b ha hb => List.forall_mem_append.mpr ⟨ha, hb⟩) fun part hmem found => ih part hmem
    refine List.forall_mem_append.mpr ⟨fun site hmem => ?_, hparts⟩
    obtain ⟨shape, hshape, rfl⟩ := List.mem_map.mp hmem
    rintro fields rest rfl
    cases pattern with
    | record listed open' span =>
      cases Option.mem_toList.mp hshape
      exact ascendingByName_sortByName id _
    | variant | tuple => cases Option.mem_toList.mp hshape
    | wildcard | bind | literal | or => cases hbranch
  | or alternatives span ih =>
    obtain ⟨certificate, -, rfl⟩ := outline_or_eq_ok_iff.mp houtline
    exact nofun

theorem ascending_outlineAlternatives {alternatives : List Pattern} {index : Nat} {base : Path}
    {span : Span} {outlined : List Outlined}
    (houtlined : outlineAlternatives alternatives index base span = .ok outlined) :
    ∀ found ∈ outlined, found.outline.Ascending := by
  intro found hmem
  obtain ⟨pattern, -, houtline, -⟩ := exists_of_forall₂ (outlineAlternatives_sound houtlined) hmem
  exact ascending_outline houtline

theorem length_allWithNames (names : Name → Name) (patterns : List Pattern) :
    (allWithNames names patterns).length = patterns.length := by
  rw [allWithNames_eq]
  exact List.length_map _

theorem names_fieldsWithNames (names : Name → Name) (fields : List (FieldOf Pattern)) :
    (fieldsWithNames names fields).map FieldOf.name = (fields.map FieldOf.name).map names := by
  induction fields with
  | nil => rfl
  | cons field rest ih =>
    obtain ⟨name, pattern, span⟩ := field
    rw [fieldsWithNames, List.map_cons, List.map_cons, List.map_cons, ih]

theorem span_withNames (names : Name → Name) (pattern : Pattern) :
    (withNames names pattern).span = pattern.span := by
  cases pattern <;> rfl

mutual

theorem outline_withNames (hnames : Function.Injective names) :
    ∀ (pattern : Pattern) (path : Path) (position : Position),
      (pattern.withNames names).outline (withNames names path) (withNames names position) =
        withNames names (pattern.outline path position)
  | wildcard _, _, _ | bind .., _, _ => rfl
  | literal value _, _, _ => by cases value <;> rfl
  | variant tag inner span, path, position => by
    have hinner := outline_withNames hnames inner (path ++ [.payload]) (position ++ [.payload tag])
    rw [withNames_append, withNames_append] at hinner
    exact withNames_bind hinner fun found _ => congrArg Except.ok
      (Outline.withNames_append names { shapes := [⟨position, path, .variant, span⟩] } found).symm
  | tuple elements span, path, position => by
    refine withNames_bind (outlineElements_withNames hnames elements 0 path position)
      fun found _ => ?_
    rw [length_allWithNames]
    exact congrArg Except.ok (Outline.withNames_append names
      { shapes := [⟨position, path, .tuple elements.length, span⟩] } found).symm
  | record fields rest span, path, position => by
    refine withNames_bind (outlineFields_withNames hnames fields path position) fun found _ => ?_
    rw [names_fieldsWithNames,
      ← @sortByName_map_sortByName _ _ id names hnames id names (fun _ => rfl)]
    exact congrArg Except.ok (Outline.withNames_append names
      { shapes := [⟨position, path, .record (sortByName id (fields.map FieldOf.name)) rest, span⟩] }
      found).symm
  | or alternatives span, path, position => by
    refine withNames_bind (outlineAlternatives_withNames hnames alternatives 0 path span)
      fun outlined houtlined => ?_
    refine withNames_bind (Outlined.agree_withNames hnames
      (ascending_outlineAlternatives houtlined)) fun agreed _ => ?_
    refine congrArg (fun bindings => Except.ok (Outline.mk bindings [])) ?_
    simp only [withNames, List.map_map, Function.comp_def]

theorem outlineElements_withNames (hnames : Function.Injective names) :
    ∀ (elements : List Pattern) (index : Nat) (path : Path) (position : Position),
      outlineElements (allWithNames names elements) index (withNames names path)
          (withNames names position) =
        withNames names (outlineElements elements index path position)
  | [], _, _, _ => rfl
  | element :: rest, index, path, position => by
    have hfirst := outline_withNames hnames element (path ++ [.element (clipIndex index)])
      (position ++ [.element (clipIndex index)])
    rw [withNames_append, withNames_append] at hfirst
    exact withNames_bind hfirst fun first _ =>
      withNames_bind (outlineElements_withNames hnames rest (index + 1) path position)
        fun others _ => congrArg Except.ok (Outline.withNames_append names first others).symm

theorem outlineFields_withNames (hnames : Function.Injective names) :
    ∀ (fields : List (FieldOf Pattern)) (path : Path) (position : Position),
      outlineFields (fieldsWithNames names fields) (withNames names path)
          (withNames names position) =
        withNames names (outlineFields fields path position)
  | [], _, _ => rfl
  | ⟨name, pattern, _⟩ :: rest, path, position => by
    have hfirst := outline_withNames hnames pattern (path ++ [.field name])
      (position ++ [.field name])
    rw [withNames_append, withNames_append] at hfirst
    exact withNames_bind hfirst fun first _ =>
      withNames_bind (outlineFields_withNames hnames rest path position)
        fun others _ => congrArg Except.ok (Outline.withNames_append names first others).symm

theorem outlineAlternatives_withNames (hnames : Function.Injective names) :
    ∀ (alternatives : List Pattern) (index : Nat) (base : Path) (span : Span),
      outlineAlternatives (allWithNames names alternatives) index (withNames names base) span =
        withNames names (outlineAlternatives alternatives index base span)
  | [], _, _, _ => rfl
  | pattern :: rest, index, base, span =>
    withNames_bind (outline_withNames hnames pattern base []) fun outline _ =>
      withNames_bind (outline.checkRepeats_withNames hnames index span) fun _ _ =>
        withNames_bind (outlineAlternatives_withNames hnames rest (index + 1) base span)
          fun others _ => by
            rw [show (pattern.withNames names).span = pattern.span from span_withNames names pattern]
            rfl

end

/-- What alternatives agree to bind, or how they disagree, is the same under other
    names. -/
theorem certify_withNames (hnames : Function.Injective names) (alternatives : List Pattern)
    (base : Path) (span : Span) :
    certify (allWithNames names alternatives) (withNames names base) span =
      withNames names (certify alternatives base span) :=
  withNames_bind (outlineAlternatives_withNames hnames alternatives 0 base span)
    fun _ houtlined => Outlined.agree_withNames hnames (ascending_outlineAlternatives houtlined)

end Pattern

end OrPattern
