import Mathlib.Data.List.Basic
import OrPattern.Compile
import OrPattern.Procedure.Select

namespace OrPattern

/-- Data in which names occur, and how other names are put in their place. What is
    listed in ascending order of names is put in order again; all else stays where it
    is. -/
class HasNames (α : Type) where
  withNames : (Name → Name) → α → α

open HasNames (withNames)

section General

variable {α β : Type}

instance : HasNames Name := ⟨fun names name => names name⟩

instance : HasNames Ty := ⟨fun _ => id⟩

instance : HasNames Nat := ⟨fun _ => id⟩

instance : HasNames Unit := ⟨fun _ => id⟩

instance : HasNames TypeOrigin := ⟨fun _ => id⟩

instance [HasNames α] : HasNames (Option α) := ⟨fun names => Option.map (withNames names)⟩

instance [HasNames α] : HasNames (List α) := ⟨fun names => List.map (withNames names)⟩

instance [HasNames α] [HasNames β] : HasNames (α × β) :=
  ⟨fun names pair => (withNames names pair.1, withNames names pair.2)⟩

theorem withNames_cons [HasNames α] (names : Name → Name) (item : α) (rest : List α) :
    withNames names (item :: rest) = withNames names item :: withNames names rest := rfl

theorem withNames_append [HasNames α] (names : Name → Name) (items others : List α) :
    withNames names (items ++ others) = withNames names items ++ withNames names others :=
  List.map_append

end General

section Types

/-- The fields of a record stand in the order of their new names. -/
def fieldsWithNames (names : Name → Name) (fields : List (Name × Ty)) : List (Name × Ty) :=
  sortByName Prod.fst (withNames names fields)

instance : HasNames Form where
  withNames names
    | .record fields => .record (fieldsWithNames names fields)
    | .classDecl name parent => .classDecl (names name) parent
    | .enumDecl name parent variants => .enumDecl (names name) parent (withNames names variants)
    | form => form

/-- The flags do not depend on names. -/
instance : HasNames PoolEntry where
  withNames names entry := { entry with form := withNames names entry.form }

instance : HasNames Pool where
  withNames names pool := ⟨pool.entries.map (withNames names)⟩

end Types

section Patterns

instance : HasNames Literal where
  withNames names
    | .str contents => .str (names contents)
    | literal => literal

instance : HasNames Step where
  withNames names
    | .field name => .field (names name)
    | step => step

mutual

protected def Pattern.withNames (names : Name → Name) : Pattern → Pattern
  | .wildcard span => .wildcard span
  | .bind name ascription span => .bind (names name) ascription span
  | .variant tag inner span => .variant (names tag) (inner.withNames names) span
  | .tuple elements span => .tuple (Pattern.allWithNames names elements) span
  | .record fields rest span => .record (Pattern.fieldsWithNames names fields) rest span
  | .literal value span => .literal (withNames names value) span
  | .or alternatives span => .or (Pattern.allWithNames names alternatives) span

def Pattern.allWithNames (names : Name → Name) : List Pattern → List Pattern
  | [] => []
  | pattern :: rest => pattern.withNames names :: Pattern.allWithNames names rest

def Pattern.fieldsWithNames (names : Name → Name) : List (FieldOf Pattern) → List (FieldOf Pattern)
  | [] => []
  | ⟨name, pattern, span⟩ :: rest =>
    ⟨names name, pattern.withNames names, span⟩ :: Pattern.fieldsWithNames names rest

end

instance : HasNames Pattern := ⟨Pattern.withNames⟩

theorem Pattern.allWithNames_eq (names : Name → Name) (patterns : List Pattern) :
    Pattern.allWithNames names patterns = withNames names patterns := by
  induction patterns with
  | nil => rfl
  | cons pattern rest ih => exact congrArg (_ :: ·) ih

mutual

protected def Value.withNames (names : Name → Name) : Value → Value
  | .int value => .int value
  | .bool value => .bool value
  | .char value => .char value
  | .str contents => .str (names contents)
  | .object className => .object (names className)
  | .variant tag payload => .variant (names tag) (payload.withNames names)
  | .tuple elements => .tuple (Value.allWithNames names elements)
  | .record fields => .record (Value.fieldsWithNames names fields)

def Value.allWithNames (names : Name → Name) : List Value → List Value
  | [] => []
  | value :: rest => value.withNames names :: Value.allWithNames names rest

def Value.fieldsWithNames (names : Name → Name) : List (Name × Value) → List (Name × Value)
  | [] => []
  | (name, value) :: rest =>
    (names name, value.withNames names) :: Value.fieldsWithNames names rest

end

instance : HasNames Value := ⟨Value.withNames⟩

end Patterns

section Shapes

instance : HasNames PositionStep where
  withNames names
    | .payload tag => .payload (names tag)
    | .field name => .field (names name)
    | step => step

instance : HasNames ShapeClass where
  withNames names
    | .record fields rest => .record (sortByName id (fields.map names)) rest
    | shape => shape

instance : HasNames Occurrence where
  withNames names occurrence :=
    { occurrence with
      name := names occurrence.name
      path := withNames names occurrence.path }

instance : HasNames ShapeSite where
  withNames names site :=
    { site with
      position := withNames names site.position
      path := withNames names site.path
      shape := withNames names site.shape }

instance : HasNames Outline where
  withNames names outline := ⟨withNames names outline.bindings, withNames names outline.shapes⟩

instance : HasNames Outlined where
  withNames names outlined := { outlined with outline := withNames names outlined.outline }

instance : HasNames Certificate where
  withNames names certificate := ⟨withNames names certificate.bindings⟩

end Shapes

section Rejections

instance : HasNames ShapeProblem where
  withNames names
    | .missingBinding name presentIn absentFrom => .missingBinding (names name) presentIn absentFrom
    | .pathMismatch name expected found alternative =>
      .pathMismatch (names name) (withNames names expected) (withNames names found) alternative
    | .incompatibleShape path left right =>
      .incompatibleShape (withNames names path) (withNames names left) (withNames names right)
    | .duplicateBinding name alternative => .duplicateBinding (names name) alternative
    | .degenerateOr count => .degenerateOr count

instance : HasNames ScrutineeProblem where
  withNames names
    | .unknownTag tag => .unknownTag (names tag)
    | .unknownField field => .unknownField (names field)
    | .missingFields fields => .missingFields (sortByName id (fields.map names))
    | .literalMismatch literal => .literalMismatch (withNames names literal)
    | problem => problem

instance : HasNames Fault where
  withNames names
    | .strayPath name found certified =>
      .strayPath (names name) (withNames names found) (withNames names certified)
    | .uncertified name => .uncertified (names name)
    | .noNestedSlot name => .noNestedSlot (names name)
    | .siteCount name sites alternatives => .siteCount (names name) sites alternatives
    | .certifiedTwice name => .certifiedTwice (names name)
    | .noSite name alternative => .noSite (names name) alternative
    | .notInEnvironment name => .notInEnvironment (names name)
    | .nestedNotCompiled path => .nestedNotCompiled (withNames names path)
    | .other message => .other message

instance : HasNames Cause where
  withNames names
    | .shape problem => .shape (withNames names problem)
    | .noCommonType name types => .noCommonType (names name) types
    | .ascription name alternative ascribed found =>
      .ascription (names name) alternative ascribed found
    | .scrutinee alternative path expected problem =>
      .scrutinee alternative (withNames names path) expected (withNames names problem)
    | .fault fault => .fault (withNames names fault)

instance : HasNames Rejection where
  withNames names rejection := { rejection with cause := withNames names rejection.cause }

instance {α : Type} [HasNames α] : HasNames (Except Rejection α) where
  withNames names
    | .ok value => .ok (withNames names value)
    | .error rejection => .error (withNames names rejection)

end Rejections

section Procedures

instance : HasNames Slot where
  withNames names slot :=
    { slot with
      name := names slot.name
      path := withNames names slot.path }

instance : HasNames Dispatch where
  withNames names dispatch :=
    { dispatch with
      path := withNames names dispatch.path
      tagged := withNames names dispatch.tagged }

mutual

protected def Procedure.withNames (names : Name → Name) : Procedure → Procedure
  | ⟨arms, dispatch, bound⟩ =>
    ⟨Arm.allWithNames names arms, withNames names dispatch, withNames names bound⟩

def Arm.allWithNames (names : Name → Name) : List Arm → List Arm
  | [] => []
  | ⟨alternative, checks, slots⟩ :: rest =>
    ⟨alternative, Check.allWithNames names checks, withNames names slots⟩
      :: Arm.allWithNames names rest

def Check.allWithNames (names : Name → Name) : List Check → List Check
  | [] => []
  | .firstOf path procedure :: rest =>
    .firstOf (withNames names path) (procedure.withNames names)
      :: Check.allWithNames names rest
  | .tag path tag :: rest =>
    .tag (withNames names path) (names tag) :: Check.allWithNames names rest
  | .literal path value :: rest =>
    .literal (withNames names path) (withNames names value)
      :: Check.allWithNames names rest

end

instance : HasNames Procedure := ⟨Procedure.withNames⟩

instance : HasNames Arm where
  withNames names arm :=
    ⟨arm.alternative, Check.allWithNames names arm.checks, withNames names arm.slots⟩

theorem Arm.allWithNames_eq (names : Name → Name) (arms : List Arm) :
    Arm.allWithNames names arms = withNames names arms := by
  induction arms with
  | nil => rfl
  | cons arm rest ih =>
    obtain ⟨alternative, checks, slots⟩ := arm
    exact congrArg (_ :: ·) ih

instance : HasNames EnvironmentEntry where
  withNames names entry := { entry with name := names entry.name }

instance : HasNames Environment where
  withNames names environment := ⟨withNames names environment.entries⟩

instance : HasNames Compiled where
  withNames names compiled :=
    ⟨withNames names compiled.procedure, withNames names compiled.environment⟩

instance : HasNames BindingSite where
  withNames names site :=
    { site with
      name := names site.name
      path := withNames names site.path }

instance : HasNames NestedPattern where
  withNames names nested :=
    { nested with
      path := withNames names nested.path
      compiled := withNames names nested.compiled }

instance : HasNames Findings where
  withNames names findings := ⟨withNames names findings.sites, withNames names findings.nested⟩

instance : HasNames Evidence where
  withNames names evidence :=
    { evidence with
      names := withNames names evidence.names
      findings := withNames names evidence.findings }

instance : HasNames EmitContext where
  withNames names context :=
    { context with
      evidence := withNames names context.evidence
      environment := withNames names context.environment }

instance : HasNames CollectContext where
  withNames names context := { context with certificate := withNames names context.certificate }

instance : HasNames ArmParts where
  withNames names parts :=
    ⟨Check.allWithNames names parts.checks, withNames names parts.slots⟩

instance : HasNames BoundValue where
  withNames names bound :=
    { bound with
      name := names bound.name
      value := withNames names bound.value }

instance : HasNames Selection where
  withNames names selection := { selection with bindings := withNames names selection.bindings }

end Procedures

/-- What stands under a name stands under its new name afterwards. -/
theorem lookup_withNames {β : Type} [HasNames β] {names : Name → Name}
    (hnames : Function.Injective names) (name : Name) (entries : List (Name × β)) :
    (withNames names entries).lookup (names name) =
      (entries.lookup name).map (withNames names) := by
  induction entries with
  | nil => rfl
  | cons entry rest ih =>
    obtain ⟨key, value⟩ := entry
    have hsame : (names name == names key) = (name == key) := by
      rw [Bool.eq_iff_iff, beq_iff_eq, beq_iff_eq, hnames.eq_iff]
    simp only [withNames, List.map_cons] at ih ⊢
    rw [List.lookup_cons, List.lookup_cons, hsame, ih]
    cases name == key <;> rfl

end OrPattern
