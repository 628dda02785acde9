import OrPattern.Proofs.Naming.Reconcile
import OrPattern.Proofs.Naming.Shape

namespace OrPattern

open HasNames (withNames)

variable {names : Name → Name} (hnames : Function.Injective names)

section Procedures

theorem Slot.withNames_retarget (hnames : Function.Injective names) (environment : Environment)
    (slot : Slot) :
    withNames names (slot.retarget environment) =
      (withNames names slot).retarget (withNames names environment) := by
  have htype := environment.type?_withNames hnames slot.name
  simp only [withNames] at htype
  simp only [retarget, withNames, htype]
  cases environment.type? slot.name <;> rfl

mutual

theorem Procedure.withNames_retarget (hnames : Function.Injective names)
    (environment : Environment) : ∀ procedure : Procedure,
      (procedure.retarget environment).withNames names =
        (procedure.withNames names).retarget (withNames names environment)
  | ⟨arms, dispatch, bound⟩ => by
    simp only [Procedure.retarget, Procedure.withNames,
      Arm.allWithNames_retargetAll hnames environment arms]

theorem Arm.allWithNames_retargetAll (hnames : Function.Injective names)
    (environment : Environment) : ∀ arms : List Arm,
      Arm.allWithNames names (Arm.retargetAll environment arms) =
        Arm.retargetAll (withNames names environment) (Arm.allWithNames names arms)
  | [] => rfl
  | ⟨alternative, checks, slots⟩ :: rest => by
    have hslots : withNames names (slots.map (Slot.retarget environment)) =
        (withNames names slots).map (Slot.retarget (withNames names environment)) := by
      refine List.map_map.trans (Eq.trans ?_ List.map_map.symm)
      exact List.map_congr_left fun slot _ => slot.withNames_retarget hnames environment
    simp only [Arm.retargetAll, Arm.allWithNames, hslots,
      Check.allWithNames_retargetAll hnames environment checks,
      Arm.allWithNames_retargetAll hnames environment rest]

theorem Check.allWithNames_retargetAll (hnames : Function.Injective names)
    (environment : Environment) : ∀ checks : List Check,
      Check.allWithNames names (Check.retargetAll environment checks) =
        Check.retargetAll (withNames names environment) (Check.allWithNames names checks)
  | [] => rfl
  | .firstOf path procedure :: rest => by
    simp only [Check.retargetAll, Check.allWithNames,
      Procedure.withNames_retarget hnames environment procedure,
      Check.allWithNames_retargetAll hnames environment rest]
  | .tag path tag :: rest | .literal path value :: rest => by
    simp only [Check.retargetAll, Check.allWithNames,
      Check.allWithNames_retargetAll hnames environment rest]

end

mutual

theorem Procedure.bindingPath?_withNames (hnames : Function.Injective names) (name : Name) :
    ∀ procedure : Procedure,
      (procedure.withNames names).bindingPath? (names name) =
        (procedure.bindingPath? name).map (withNames names)
  | ⟨[], _, _⟩ => rfl
  | ⟨⟨_, checks, slots⟩ :: _, _, _⟩ => by
    have hslot : (withNames names slots).find? (fun slot => slot.name = names name) =
        (slots.find? fun slot => slot.name = name).map (withNames names) := by
      simp only [withNames, List.find?_map, Function.comp_def, hnames.eq_iff]
    simp only [Procedure.withNames, Arm.allWithNames, Procedure.bindingPath?, hslot,
      Check.bindingPath?_allWithNames hnames name checks]
    cases slots.find? fun slot => slot.name = name <;> rfl

theorem Check.bindingPath?_allWithNames (hnames : Function.Injective names) (name : Name) :
    ∀ checks : List Check,
      Check.bindingPath? (names name) (Check.allWithNames names checks) =
        (Check.bindingPath? name checks).map (withNames names)
  | [] => rfl
  | .firstOf path procedure :: rest => by
    simp only [Check.allWithNames, Check.bindingPath?,
      Procedure.bindingPath?_withNames hnames name procedure,
      Check.bindingPath?_allWithNames hnames name rest]
    cases procedure.bindingPath? name <;> rfl
  | .tag path tag :: rest | .literal path value :: rest => by
    simp only [Check.allWithNames, Check.bindingPath?,
      Check.bindingPath?_allWithNames hnames name rest]

end

theorem Check.allWithNames_append (names : Name → Name) (checks others : List Check) :
    Check.allWithNames names (checks ++ others) =
      Check.allWithNames names checks ++ Check.allWithNames names others := by
  induction checks with
  | nil => rfl
  | cons check rest ih => cases check <;> simp only [List.cons_append, Check.allWithNames, ih]

protected theorem ArmParts.withNames_append (names : Name → Name) (parts others : ArmParts) :
    withNames names (parts ++ others) = withNames names parts ++ withNames names others :=
  congrArg₂ ArmParts.mk (Check.allWithNames_append names parts.checks others.checks)
    List.map_append

namespace Arm

variable (path : Path)
include hnames

theorem tagAt?_withNames (alternative : Nat) (checks : List Check) (slots others : List Slot) :
    tagAt? (withNames names path) ⟨alternative, Check.allWithNames names checks, others⟩ =
      (tagAt? path ⟨alternative, checks, slots⟩).map names := by
  simp only [tagAt?]
  induction checks with
  | nil => rfl
  | cons check rest ih =>
    cases check with
    | tag place tag =>
      simp only [Check.allWithNames, List.findSome?_cons, path_eq_iff hnames, ih]
      by_cases hplace : place = path <;> simp [hplace]
    | literal | firstOf => simpa only [Check.allWithNames, List.findSome?_cons] using ih

theorem taggedAt_withNames (index : Nat) (arms : List Arm) :
    taggedAt (withNames names path) index (allWithNames names arms) =
      withNames names (taggedAt path index arms) := by
  induction arms generalizing index with
  | nil => rfl
  | cons arm rest ih =>
    obtain ⟨alternative, checks, slots⟩ := arm
    simp only [allWithNames, taggedAt, tagAt?_withNames hnames path alternative checks slots, ih]
    cases tagAt? path ⟨alternative, checks, slots⟩ <;> rfl

theorem untaggedAt_withNames (index : Nat) (arms : List Arm) :
    untaggedAt (withNames names path) index (allWithNames names arms) =
      untaggedAt path index arms := by
  induction arms generalizing index with
  | nil => rfl
  | cons arm rest ih =>
    obtain ⟨alternative, checks, slots⟩ := arm
    simp only [allWithNames, untaggedAt, tagAt?_withNames hnames path alternative checks slots, ih]
    cases tagAt? path ⟨alternative, checks, slots⟩ <;> rfl

omit hnames

theorem length_allWithNames (names : Name → Name) (arms : List Arm) :
    (allWithNames names arms).length = arms.length := by
  rw [allWithNames_eq]
  exact List.length_map _

end Arm

include hnames in
theorem Dispatch.ofArms?_withNames (arms : List Arm) (path : Path) :
    ofArms? (Arm.allWithNames names arms) (withNames names path) =
      withNames names (ofArms? arms path) := by
  simp only [ofArms?, Arm.taggedAt_withNames hnames, Arm.untaggedAt_withNames hnames]
  cases Arm.taggedAt path 0 arms <;> rfl

end Procedures

section Emission

namespace EmitContext

variable (context : EmitContext) (name : Name) (path : Path) (span : Span)
include hnames

theorem site?_withNames (evidence : Evidence) (alternative : Nat) :
    (withNames names evidence).site? (names name) alternative =
      (evidence.site? name alternative).map (withNames names) := by
  rw [Evidence.site?, Evidence.sites_withNames hnames]
  exact BindingSite.find?_withNames names (fun _ => rfl) _

theorem nested?_withNames (evidence : Evidence) (alternative : Nat) :
    (withNames names evidence).nested? alternative (withNames names path) =
      (evidence.nested? alternative path).map (withNames names) := by
  have hnested : (withNames names evidence.findings.nested).filter (fun nested =>
        nested.alternative = alternative && nested.path = withNames names path) =
      withNames names (evidence.findings.nested.filter fun nested =>
        nested.alternative = alternative && nested.path = path) := by
    refine List.filter_map.trans (congrArg _ (List.filter_congr fun nested _ => ?_))
    exact congrArg _ (decide_eq_decide.mpr (path_eq_iff hnames))
  rw [Evidence.nested?, Evidence.nested?]
  refine (congrArg (fun found => found.getLast?.map NestedPattern.compiled) hnested).trans ?_
  simp only [withNames, List.getLast?_map, Option.map_map]
  rfl

theorem slot_withNames :
    (withNames names context).slot (names name) (withNames names path) span =
      withNames names (context.slot name path span) := by
  have hsite := site?_withNames hnames name context.evidence context.alternative
  have htype := context.environment.type?_withNames hnames name
  simp only [withNames] at hsite htype
  simp only [slot, withNames, hsite, htype]
  cases context.evidence.site? name context.alternative with
  | none => rfl
  | some site => cases context.environment.type? name <;> rfl

theorem nestedCheck_withNames :
    (do
      let check ← (withNames names context).nestedCheck (withNames names path) span
      return { checks := [check] }) =
      withNames names (do
        let check ← context.nestedCheck path span
        return ({ checks := [check] } : ArmParts)) := by
  have hnested := nested?_withNames hnames path context.evidence context.alternative
  simp only [nestedCheck]
  rw [show (withNames names context).evidence = withNames names context.evidence from rfl,
    show (withNames names context).alternative = context.alternative from rfl, hnested]
  cases context.evidence.nested? context.alternative path with
  | none => rfl
  | some compiled =>
    have hretarget := compiled.procedure.withNames_retarget hnames context.environment
    exact congrArg (fun procedure =>
      Except.ok (ArmParts.mk [.firstOf (withNames names path) procedure] [])) hretarget.symm

end EmitContext

namespace Pattern

mutual

theorem armParts_withNames (hnames : Function.Injective names) (context : EmitContext) :
    ∀ (pattern : Pattern) (path : Path),
      (pattern.withNames names).armParts (withNames names context) (withNames names path) =
        withNames names (pattern.armParts context path)
  | wildcard _, _ => rfl
  | bind name _ span, path =>
    withNames_bind (context.slot_withNames hnames name path span) fun _ _ => rfl
  | literal value _, _ => rfl
  | variant tag inner _, path => by
    have hinner := armParts_withNames hnames context inner (path ++ [.payload])
    rw [withNames_append] at hinner
    exact withNames_bind hinner fun parts _ =>
      congrArg Except.ok (ArmParts.withNames_append names { checks := [.tag path tag] } parts).symm
  | tuple elements _, path => armPartsElements_withNames hnames context elements 0 path
  | record fields _ _, path => armPartsFields_withNames hnames context fields path
  | or _ span, path => context.nestedCheck_withNames hnames path span

theorem armPartsElements_withNames (hnames : Function.Injective names) (context : EmitContext) :
    ∀ (elements : List Pattern) (index : Nat) (path : Path),
      armPartsElements (withNames names context) (allWithNames names elements) index
          (withNames names path) =
        withNames names (armPartsElements context elements index path)
  | [], _, _ => rfl
  | element :: rest, index, path => by
    have hfirst := armParts_withNames hnames context element
      (path ++ [.element (clipIndex index)])
    rw [withNames_append] at hfirst
    exact withNames_bind hfirst fun first _ =>
      withNames_bind (armPartsElements_withNames hnames context rest (index + 1) path)
        fun others _ => congrArg Except.ok (ArmParts.withNames_append names first others).symm

theorem armPartsFields_withNames (hnames : Function.Injective names) (context : EmitContext) :
    ∀ (fields : List (FieldOf Pattern)) (path : Path),
      armPartsFields (withNames names context) (fieldsWithNames names fields)
          (withNames names path) =
        withNames names (armPartsFields context fields path)
  | [], _ => rfl
  | ⟨name, pattern, _⟩ :: rest, path => by
    have hfirst := armParts_withNames hnames context pattern (path ++ [.field name])
    rw [withNames_append] at hfirst
    exact withNames_bind hfirst fun first _ =>
      withNames_bind (armPartsFields_withNames hnames context rest path)
        fun others _ => congrArg Except.ok (ArmParts.withNames_append names first others).symm

end

end Pattern

namespace Evidence

variable (evidence : Evidence) (environment : Environment) (base : Path)
include hnames

theorem emitArms_withNames (alternatives : List Pattern) (index : Nat) :
    (withNames names evidence).emitArms (withNames names environment) (withNames names base)
        (Pattern.allWithNames names alternatives) index =
      withNames names (evidence.emitArms environment base alternatives index) := by
  induction alternatives generalizing index with
  | nil => rfl
  | cons pattern rest ih =>
    have hparts := Pattern.armParts_withNames hnames ⟨evidence, environment, index⟩ pattern base
    exact withNames_bind hparts fun parts _ => withNames_bind (ih (index + 1)) fun others _ => rfl

/-- The procedure is emitted in the same way under other names. -/
theorem emit_withNames (options : Options) (alternatives : List Pattern) :
    (withNames names evidence).emit options (withNames names environment) (withNames names base)
        (Pattern.allWithNames names alternatives) =
      withNames names (evidence.emit options environment base alternatives) := by
  refine withNames_bind (emitArms_withNames hnames evidence environment base alternatives 0)
    fun arms _ => ?_
  have hbound : (withNames names environment).names = withNames names environment.names := by
    simp only [Environment.names, withNames, List.map_map, Function.comp_def]
  rw [← Arm.allWithNames_eq, Arm.length_allWithNames, Dispatch.ofArms?_withNames hnames, hbound]
  refine congrArg (fun dispatch => Except.ok (Procedure.mk _ dispatch _)) ?_
  split <;> rfl

end Evidence

end Emission

end OrPattern
