import OrPattern.Proofs.Compile.Renamed
import OrPattern.Proofs.Naming.Shape
import OrPattern.Proofs.Select.Retarget

namespace OrPattern

open HasNames (withNames)

section Types

/-- What is bound, with other numbers for its types. -/
def BoundValue.rename (rename : Ty → Ty) (bound : BoundValue) : BoundValue :=
  { bound with exposed := rename bound.exposed, native := rename bound.native }

def Selection.rename (rename : Ty → Ty) (selection : Selection) : Selection :=
  { selection with bindings := selection.bindings.map (BoundValue.rename rename) }

variable (rename : Ty → Ty) (root : Value)

theorem BoundValue.arrange_rename (names : List Name) (bindings : List BoundValue) :
    arrange names (bindings.map (BoundValue.rename rename)) =
      (arrange names bindings).map (BoundValue.rename rename) := by
  have harranged := @arrange_map (BoundValue.rename rename) id Function.injective_id (fun _ => rfl)
    names bindings
  rwa [List.map_id] at harranged

theorem Slot.readAll_rename (slots : List Slot) :
    (slots.map (Slot.rename rename)).mapM (Slot.read root) =
      (slots.mapM (Slot.read root)).map (List.map (BoundValue.rename rename)) := by
  refine readAll_map root (fun slot => ?_) slots
  simp only [read, Slot.rename]
  cases root.at? slot.path <;> rfl

mutual

/-- A procedure chooses and binds the same whatever the numbers of the types are. -/
theorem Procedure.select_rename : ∀ procedure : Procedure,
    (procedure.rename rename).select root = (procedure.select root).map (Selection.rename rename)
  | ⟨arms, dispatch, names⟩ => by
    simp only [Procedure.rename, Procedure.select, Arm.outcomes_renameAll names arms,
      firstSelection_map]

theorem Arm.outcomes_renameAll (names : List Name) : ∀ arms : List Arm,
    Arm.outcomes root names (Arm.renameAll rename arms) =
      (Arm.outcomes root names arms).map (Option.map (Selection.rename rename))
  | [] => rfl
  | ⟨alternative, checks, slots⟩ :: rest => by
    simp only [Arm.renameAll, Arm.outcomes, List.map_cons, Check.bindings?_renameAll checks,
      Slot.readAll_rename, Arm.outcomes_renameAll names rest]
    cases Check.bindings? root checks with
    | none => rfl
    | some nested =>
      cases slots.mapM (Slot.read root) with
      | none => rfl
      | some own =>
        simp only [Option.map_some, ← List.map_append, BoundValue.arrange_rename, Selection.rename]

theorem Check.bindings?_renameAll : ∀ checks : List Check,
    Check.bindings? root (Check.renameAll rename checks) =
      (Check.bindings? root checks).map (List.map (BoundValue.rename rename))
  | [] => rfl
  | .tag path tag :: rest | .literal path value :: rest => by
    simp only [Check.renameAll, Check.bindings?, Check.bindings?_renameAll rest]
    split <;> rfl
  | .firstOf path procedure :: rest => by
    simp only [Check.renameAll, Check.bindings?, Procedure.select_rename procedure,
      Check.bindings?_renameAll rest]
    cases procedure.select root with
    | none => rfl
    | some selection =>
      cases Check.bindings? root rest with
      | none => rfl
      | some others => simp only [Option.map_some, Selection.rename, List.map_append]

end

end Types

section Names

variable {names : Name → Name} (hnames : Function.Injective names)

namespace Value

theorem allWithNames_eq (names : Name → Name) (values : List Value) :
    allWithNames names values = withNames names values := by
  induction values with
  | nil => rfl
  | cons value rest ih => exact congrArg (_ :: ·) ih

theorem fieldsWithNames_eq (names : Name → Name) (fields : List (Name × Value)) :
    fieldsWithNames names fields = withNames names fields := by
  induction fields with
  | nil => rfl
  | cons field rest ih => exact congrArg (_ :: ·) ih

theorem tag?_withNames (names : Name → Name) (value : Value) :
    (withNames names value).tag? = value.tag?.map names := by
  cases value <;> rfl

include hnames

theorem project_withNames (value : Value) (step : Step) :
    (withNames names value).project (withNames names step) =
      (value.project step).map (withNames names) := by
  cases value with
  | tuple elements =>
    cases step with
    | element index =>
      have helement : (allWithNames names elements)[index]? =
          elements[index]?.map (withNames names) := by
        rw [allWithNames_eq]
        exact List.getElem?_map
      exact helement
    | payload | field => rfl
  | record fields =>
    cases step with
    | field name =>
      have hfield : (fieldsWithNames names fields).lookup (names name) =
          (fields.lookup name).map (withNames names) := by
        rw [fieldsWithNames_eq, lookup_withNames hnames]
      exact hfield
    | payload | element => rfl
  | _ => cases step <;> rfl

theorem at?_withNames (value : Value) (path : Path) :
    (withNames names value).at? (withNames names path) =
      (value.at? path).map (withNames names) := by
  induction path generalizing value with
  | nil => rfl
  | cons step path ih =>
    simp only [withNames_cons, at?, project_withNames hnames]
    cases value.project step with
    | none => rfl
    | some component => exact ih component

theorem matchesLiteral_withNames (value : Value) (literal : Literal) :
    (withNames names value).matchesLiteral (withNames names literal) =
      value.matchesLiteral literal := by
  cases value with
  | str contents =>
    cases literal with
    | str expected =>
      change (names contents == names expected) = (contents == expected)
      rw [Bool.eq_iff_iff, beq_iff_eq, beq_iff_eq, hnames.eq_iff]
    | int | bool | char => rfl
  | _ => cases literal <;> rfl

end Value

variable (root : Value)
include hnames

theorem Slot.readAll_withNames (slots : List Slot) :
    (withNames names slots).mapM (Slot.read (withNames names root)) =
      (slots.mapM (Slot.read root)).map (withNames names) := by
  refine readAll_map root (fun slot => ?_) slots
  have hvalue := root.at?_withNames hnames slot.path
  simp only [withNames] at hvalue
  simp only [read, withNames, hvalue]
  cases root.at? slot.path <;> rfl

theorem Value.tagAt_withNames (path : Path) :
    ((withNames names root).at? (withNames names path)).bind tag? =
      ((root.at? path).bind tag?).map names := by
  rw [at?_withNames hnames]
  cases root.at? path with
  | none => rfl
  | some value => exact value.tag?_withNames names

theorem Dispatch.candidates?_withNames (dispatch : Dispatch) :
    (withNames names dispatch).candidates? (withNames names root) = dispatch.candidates? root := by
  have htag := root.tagAt_withNames hnames dispatch.path
  have htagged : ∀ tag, ((withNames names dispatch.tagged).filter fun arm =>
        arm.1 = names tag).map Prod.snd =
      (dispatch.tagged.filter fun arm => arm.1 = tag).map Prod.snd := by
    intro tag
    simp only [withNames, List.filter_map, List.map_map, Function.comp_def, hnames.eq_iff, id_eq]
  simp only [withNames] at htag htagged
  simp only [candidates?, withNames, htag]
  cases (root.at? dispatch.path).bind Value.tag? with
  | none => rfl
  | some tag => simp only [Option.map_some, htagged]

omit hnames root

mutual

/-- A procedure under other names chooses the same alternative for a value under the
    same other names, and binds what corresponds. -/
theorem Procedure.select_withNames (hnames : Function.Injective names) (root : Value) :
    ∀ procedure : Procedure,
      (procedure.withNames names).select (withNames names root) =
        (procedure.select root).map (withNames names)
  | ⟨arms, dispatch, bound⟩ => by
    have hcandidates : (withNames names dispatch).bind (·.candidates? (withNames names root)) =
        dispatch.bind (·.candidates? root) := by
      cases dispatch with
      | none => rfl
      | some dispatch => exact dispatch.candidates?_withNames hnames root
    simp only [Procedure.withNames, Procedure.select, hcandidates,
      Arm.outcomes_allWithNames hnames root bound arms, firstSelection_map]

theorem Arm.outcomes_allWithNames (hnames : Function.Injective names) (root : Value)
    (bound : List Name) : ∀ arms : List Arm,
      Arm.outcomes (withNames names root) (withNames names bound) (Arm.allWithNames names arms) =
        (Arm.outcomes root bound arms).map (Option.map (withNames names))
  | [] => rfl
  | ⟨alternative, checks, slots⟩ :: rest => by
    simp only [Arm.allWithNames, Arm.outcomes, List.map_cons,
      Check.bindings?_allWithNames hnames root checks, Slot.readAll_withNames hnames,
      Arm.outcomes_allWithNames hnames root bound rest]
    cases Check.bindings? root checks with
    | none => rfl
    | some nested =>
      cases slots.mapM (Slot.read root) with
      | none => rfl
      | some own =>
        have harranged := @BoundValue.arrange_map (withNames names) names hnames (fun _ => rfl)
          bound (nested ++ own)
        simp only [withNames, List.map_append] at harranged
        simp only [withNames, Option.map_some, harranged]

theorem Check.bindings?_allWithNames (hnames : Function.Injective names) (root : Value) :
    ∀ checks : List Check,
      Check.bindings? (withNames names root) (Check.allWithNames names checks) =
        (Check.bindings? root checks).map (withNames names)
  | [] => rfl
  | .tag path tag :: rest => by
    have htag := root.tagAt_withNames hnames path
    have hsame : ((root.at? path).bind Value.tag?).map names = some (names tag) ↔
        (root.at? path).bind Value.tag? = some tag :=
      (Option.map_injective hnames).eq_iff (b := some tag)
    simp only [Check.allWithNames, Check.bindings?, htag, hsame,
      Check.bindings?_allWithNames hnames root rest]
    split <;> rfl
  | .literal path value :: rest => by
    simp only [Check.allWithNames, Check.bindings?, Value.at?_withNames hnames,
      Check.bindings?_allWithNames hnames root rest, Option.any_map,
      Value.matchesLiteral_withNames hnames]
    split <;> rfl
  | .firstOf path procedure :: rest => by
    simp only [Check.allWithNames, Check.bindings?,
      Procedure.select_withNames hnames root procedure,
      Check.bindings?_allWithNames hnames root rest]
    cases procedure.select root with
    | none => rfl
    | some selection =>
      cases Check.bindings? root rest with
      | none => rfl
      | some others => exact congrArg some List.map_append.symm

end

end Names

end OrPattern
