import OrPattern.Compile
import OrPattern.Proofs.Pool.Alike

namespace OrPattern

/-! Other numbers for the types in what a compilation takes and gives. -/

def Implicated.rename (rename : Ty → Ty) (site : Implicated) : Implicated :=
  { site with type := site.type.map rename }

def Cause.rename (rename : Ty → Ty) : Cause → Cause
  | .noCommonType name types =>
    .noCommonType name (types.map fun entry => (entry.1, rename entry.2))
  | .ascription name alternative ascribed found =>
    .ascription name alternative (rename ascribed) (rename found)
  | .scrutinee alternative path expected problem =>
    .scrutinee alternative path (rename expected) problem
  | cause => cause

def Rejection.rename (rename : Ty → Ty) (rejection : Rejection) : Rejection where
  cause := rejection.cause.rename rename
  span := rejection.span
  sites := rejection.sites.map (Implicated.rename rename)

/-- The result with other numbers, in a rejection as well. -/
def renameResult {α : Type} (rename : Ty → Ty) (change : α → α) :
    Except Rejection α → Except Rejection α
  | .ok value => .ok (change value)
  | .error rejection => .error (rejection.rename rename)

def Slot.rename (rename : Ty → Ty) (slot : Slot) : Slot :=
  { slot with native := rename slot.native, exposed := rename slot.exposed }

mutual

def Procedure.rename (rename : Ty → Ty) : Procedure → Procedure
  | ⟨arms, dispatch, names⟩ => ⟨Arm.renameAll rename arms, dispatch, names⟩

def Arm.renameAll (rename : Ty → Ty) : List Arm → List Arm
  | [] => []
  | ⟨alternative, checks, slots⟩ :: rest =>
    ⟨alternative, Check.renameAll rename checks, slots.map (Slot.rename rename)⟩
      :: Arm.renameAll rename rest

def Check.renameAll (rename : Ty → Ty) : List Check → List Check
  | [] => []
  | .firstOf path procedure :: rest =>
    .firstOf path (procedure.rename rename) :: Check.renameAll rename rest
  | .tag path tag :: rest => .tag path tag :: Check.renameAll rename rest
  | .literal path value :: rest => .literal path value :: Check.renameAll rename rest

end

def EnvironmentEntry.rename (rename : Ty → Ty) (entry : EnvironmentEntry) : EnvironmentEntry :=
  { entry with type := rename entry.type }

def Environment.rename (rename : Ty → Ty) (environment : Environment) : Environment :=
  ⟨environment.entries.map (EnvironmentEntry.rename rename)⟩

def Compiled.rename (rename : Ty → Ty) (compiled : Compiled) : Compiled :=
  ⟨compiled.procedure.rename rename, compiled.environment.rename rename⟩

def BindingSite.rename (rename : Ty → Ty) (site : BindingSite) : BindingSite :=
  { site with ascription := site.ascription.map rename, inferred := rename site.inferred }

def NestedPattern.rename (rename : Ty → Ty) (nested : NestedPattern) : NestedPattern :=
  { nested with compiled := nested.compiled.rename rename }

def Findings.rename (rename : Ty → Ty) (findings : Findings) : Findings :=
  ⟨findings.sites.map (BindingSite.rename rename),
    findings.nested.map (NestedPattern.rename rename)⟩

def Evidence.rename (rename : Ty → Ty) (evidence : Evidence) : Evidence :=
  { evidence with findings := evidence.findings.rename rename }

def EmitContext.rename (rename : Ty → Ty) (context : EmitContext) : EmitContext :=
  ⟨context.evidence.rename rename, context.environment.rename rename, context.alternative⟩

def ArmParts.rename (rename : Ty → Ty) (parts : ArmParts) : ArmParts :=
  ⟨Check.renameAll rename parts.checks, parts.slots.map (Slot.rename rename)⟩

variable {rename : Ty → Ty}

theorem renameResult_bind {α β : Type} {change : α → α} {changeNext : β → β}
    {result : Except Rejection α} {next otherNext : α → Except Rejection β}
    (hnext : ∀ value, otherNext (change value) = renameResult rename changeNext (next value)) :
    (renameResult rename change result >>= otherNext) =
      renameResult rename changeNext (result >>= next) := by
  cases result with
  | error rejection => rfl
  | ok value => exact hnext value

section Identity

theorem Implicated.rename_id (site : Implicated) : site.rename id = site := by
  simp [Implicated.rename]

theorem Cause.rename_id (cause : Cause) : cause.rename id = cause := by
  cases cause <;> simp [Cause.rename]

theorem Rejection.rename_id (rejection : Rejection) : rejection.rename id = rejection := by
  have hsites : rejection.sites.map (Implicated.rename id) = rejection.sites :=
    (List.map_congr_left fun site _ => site.rename_id).trans (List.map_id _)
  rw [Rejection.rename, Cause.rename_id, hsites]

mutual

theorem Procedure.rename_id : ∀ procedure : Procedure, procedure.rename id = procedure
  | ⟨arms, _, _⟩ => by rw [Procedure.rename, Arm.renameAll_id arms]

theorem Arm.renameAll_id : ∀ arms : List Arm, Arm.renameAll id arms = arms
  | [] => rfl
  | ⟨_, checks, slots⟩ :: rest => by
    have hslots : slots.map (Slot.rename id) = slots := List.map_id slots
    rw [Arm.renameAll, Check.renameAll_id checks, hslots, Arm.renameAll_id rest]

theorem Check.renameAll_id : ∀ checks : List Check, Check.renameAll id checks = checks
  | [] => rfl
  | .firstOf path procedure :: rest => by
    rw [Check.renameAll, Procedure.rename_id procedure, Check.renameAll_id rest]
  | .tag path tag :: rest => by rw [Check.renameAll, Check.renameAll_id rest]
  | .literal path value :: rest => by rw [Check.renameAll, Check.renameAll_id rest]

end

theorem Compiled.rename_id (compiled : Compiled) : compiled.rename id = compiled := by
  have hentries : compiled.environment.entries.map (EnvironmentEntry.rename id) =
    compiled.environment.entries := List.map_id _
  rw [Compiled.rename, Procedure.rename_id, Environment.rename, hentries]

theorem Compiled.renameResult_id (result : Except Rejection Compiled) :
    renameResult id (Compiled.rename id) result = result := by
  cases result with
  | error rejection => exact congrArg Except.error rejection.rename_id
  | ok compiled => exact congrArg Except.ok compiled.rename_id

end Identity

section Rejections

theorem Implicated.sort_rename (sites : List Implicated) :
    sort (sites.map (Implicated.rename rename)) = (sort sites).map (Implicated.rename rename) := by
  have hinsert : ∀ (site : Implicated) (sorted : List Implicated),
      (site.rename rename).insert (sorted.map (Implicated.rename rename)) =
        (site.insert sorted).map (Implicated.rename rename) := by
    intro site sorted
    induction sorted with
    | nil => rfl
    | cons first rest ih =>
      simp only [List.map_cons, insert, ih]
      by_cases hlt : site.alternative < first.alternative
      · rw [if_pos hlt, if_pos (show (site.rename rename).alternative <
          (first.rename rename).alternative from hlt)]
        rfl
      · rw [if_neg hlt, if_neg (show ¬ (site.rename rename).alternative <
          (first.rename rename).alternative from hlt)]
        rfl
  suffices h : ∀ sorted : List Implicated,
      (sites.map (Implicated.rename rename)).foldl (fun sorted site => insert site sorted)
          (sorted.map (Implicated.rename rename)) =
        (sites.foldl (fun sorted site => insert site sorted) sorted).map
          (Implicated.rename rename) from h []
  induction sites with
  | nil => exact fun _ => rfl
  | cons site rest ih =>
    intro sorted
    rw [List.map_cons, List.foldl_cons, List.foldl_cons, hinsert, ih]

namespace Rejection

theorem rename_ofCause (cause : Cause) (span : Span) (sites : List Implicated) :
    (ofCause cause span sites).rename rename =
      ofCause (cause.rename rename) span (sites.map (Implicated.rename rename)) := by
  simp only [ofCause, Rejection.rename, Implicated.sort_rename]

theorem rename_ofTypes (name : Name) (span : Span) (sites : List Implicated) :
    (ofTypes name span sites).rename rename =
      ofTypes name span (sites.map (Implicated.rename rename)) := by
  simp only [ofTypes, rename_ofCause, Implicated.sort_rename, Cause.rename]
  congr 2
  rw [List.filterMap_map, List.map_filterMap]
  refine congrArg₂ _ ?_ rfl
  funext site
  cases htype : site.type <;> simp [Implicated.rename, htype]

theorem rename_ofAscription (name : Name) (span : Span) (bound conflicting : Implicated)
    (ascribed found : Ty) :
    (ofAscription name span bound conflicting ascribed found).rename rename =
      ofAscription name span (bound.rename rename) (conflicting.rename rename) (rename ascribed)
        (rename found) := by
  by_cases hsame : bound.alternative = conflicting.alternative
  · simp [ofAscription, rename_ofCause, Cause.rename, Implicated.rename, hsame]
  · simp [ofAscription, rename_ofCause, Cause.rename, Implicated.rename, hsame]

theorem rename_ofScrutinee (alternative : Nat) (path : Path) (expected : Ty)
    (problem : ScrutineeProblem) (span : Span) :
    (ofScrutinee alternative path expected problem span).rename rename =
      ofScrutinee alternative path (rename expected) problem span :=
  rename_ofCause _ _ _

theorem rename_ofFault (fault : Fault) (span : Span) :
    (ofFault fault span).rename rename = ofFault fault span :=
  rename_ofCause _ _ _

/-- The shape phase names no type. -/
theorem rename_ofShape (problem : ShapeProblem) (span : Span) {sites : List Implicated}
    (huntyped : ∀ site ∈ sites, site.type = none) :
    (ofShape problem span sites).rename rename = ofShape problem span sites := by
  have hsites : sites.map (Implicated.rename rename) = sites := by
    refine (List.map_congr_left fun site hmem => ?_).trans (List.map_id sites)
    obtain ⟨alternative, place, type⟩ := site
    obtain rfl : type = none := huntyped _ hmem
    rfl
  rw [ofShape, rename_ofCause, hsites]
  rfl

end Rejection

end Rejections

section Environments

variable (environment : Environment) (name : Name)

theorem Environment.type?_rename :
    (environment.rename rename).type? name = (environment.type? name).map rename := by
  have hentry : Environment.entry? (environment.rename rename) name =
      (environment.entry? name).map (EnvironmentEntry.rename rename) := List.find?_map
  rw [type?, hentry, type?, Option.map_map, Option.map_map]
  rfl

theorem Environment.names_rename : (environment.rename rename).names = environment.names := by
  simp only [names, Environment.rename, List.map_map]
  rfl

theorem Environment.insert?_rename (rename : Ty → Ty) (entry : EnvironmentEntry) :
    (environment.rename rename).insert? (entry.rename rename) =
      (environment.insert? entry).map (Environment.rename rename) := by
  have hcontains : (environment.rename rename).contains (entry.rename rename).name =
      environment.contains entry.name := List.any_map
  unfold insert?
  rw [hcontains]
  split
  · rfl
  · simp [Environment.rename]

end Environments

section Procedures

theorem Conversion.between_rename (hinjective : Function.Injective rename) (native exposed : Ty) :
    between (rename native) (rename exposed) = between native exposed := by
  simp only [between, hinjective.eq_iff]

theorem Slot.rename_retarget (hinjective : Function.Injective rename) (environment : Environment)
    (slot : Slot) :
    (slot.retarget environment).rename rename =
      (slot.rename rename).retarget (environment.rename rename) := by
  have hname : (slot.rename rename).name = slot.name := rfl
  simp only [retarget, hname, Environment.type?_rename]
  cases environment.type? slot.name with
  | none => rfl
  | some exposed =>
    simp only [Option.map_some, Slot.rename, Conversion.between_rename hinjective]

mutual

theorem Procedure.rename_retarget (hinjective : Function.Injective rename)
    (environment : Environment) : ∀ procedure : Procedure,
      (procedure.retarget environment).rename rename =
        (procedure.rename rename).retarget (environment.rename rename)
  | ⟨arms, dispatch, names⟩ => by
    simp only [Procedure.retarget, Procedure.rename,
      Arm.renameAll_retargetAll hinjective environment arms]

theorem Arm.renameAll_retargetAll (hinjective : Function.Injective rename)
    (environment : Environment) : ∀ arms : List Arm,
      Arm.renameAll rename (Arm.retargetAll environment arms) =
        Arm.retargetAll (environment.rename rename) (Arm.renameAll rename arms)
  | [] => rfl
  | ⟨alternative, checks, slots⟩ :: rest => by
    simp only [Arm.retargetAll, Arm.renameAll, List.map_map,
      Check.renameAll_retargetAll hinjective environment checks,
      Arm.renameAll_retargetAll hinjective environment rest]
    congr 2
    exact List.map_congr_left fun slot _ => slot.rename_retarget hinjective environment

theorem Check.renameAll_retargetAll (hinjective : Function.Injective rename)
    (environment : Environment) : ∀ checks : List Check,
      Check.renameAll rename (Check.retargetAll environment checks) =
        Check.retargetAll (environment.rename rename) (Check.renameAll rename checks)
  | [] => rfl
  | .firstOf path procedure :: rest => by
    simp only [Check.retargetAll, Check.renameAll,
      Procedure.rename_retarget hinjective environment procedure,
      Check.renameAll_retargetAll hinjective environment rest]
  | .tag path tag :: rest => by
    simp only [Check.retargetAll, Check.renameAll,
      Check.renameAll_retargetAll hinjective environment rest]
  | .literal path value :: rest => by
    simp only [Check.retargetAll, Check.renameAll,
      Check.renameAll_retargetAll hinjective environment rest]

end

mutual

theorem Procedure.bindingPath?_rename (name : Name) :
    ∀ procedure : Procedure,
      (procedure.rename rename).bindingPath? name = procedure.bindingPath? name
  | ⟨[], _, _⟩ => rfl
  | ⟨⟨_, checks, slots⟩ :: _, _, _⟩ => by
    have hslot : (slots.map (Slot.rename rename)).find? (fun slot => slot.name = name) =
        (slots.find? fun slot => slot.name = name).map (Slot.rename rename) := List.find?_map
    simp only [Procedure.rename, Arm.renameAll, Procedure.bindingPath?, hslot,
      Check.bindingPath?_renameAll name checks]
    cases slots.find? fun slot => slot.name = name <;> rfl

theorem Check.bindingPath?_renameAll (name : Name) :
    ∀ checks : List Check,
      Check.bindingPath? name (Check.renameAll rename checks) = Check.bindingPath? name checks
  | [] => rfl
  | .firstOf path procedure :: rest => by
    simp only [Check.renameAll, Check.bindingPath?, Procedure.bindingPath?_rename name procedure,
      Check.bindingPath?_renameAll name rest]
  | .tag path tag :: rest => by
    simp only [Check.renameAll, Check.bindingPath?, Check.bindingPath?_renameAll name rest]
  | .literal path value :: rest => by
    simp only [Check.renameAll, Check.bindingPath?, Check.bindingPath?_renameAll name rest]

end

theorem Check.renameAll_append (checks others : List Check) :
    Check.renameAll rename (checks ++ others) =
      Check.renameAll rename checks ++ Check.renameAll rename others := by
  induction checks with
  | nil => rfl
  | cons check rest ih => cases check <;> simp only [List.cons_append, Check.renameAll, ih]

theorem ArmParts.rename_append (parts others : ArmParts) :
    (parts ++ others).rename rename = parts.rename rename ++ others.rename rename := by
  have hslots : (parts.slots ++ others.slots).map (Slot.rename rename) =
      parts.slots.map (Slot.rename rename) ++ others.slots.map (Slot.rename rename) :=
    List.map_append
  exact congrArg₂ ArmParts.mk (Check.renameAll_append parts.checks others.checks) hslots

namespace Arm

variable (path : Path)

/-- The tag that an arm tests does not depend on types. -/
theorem tagAt?_rename (alternative : Nat) (checks : List Check) (slots others : List Slot) :
    tagAt? path ⟨alternative, Check.renameAll rename checks, others⟩ =
      tagAt? path ⟨alternative, checks, slots⟩ := by
  simp only [tagAt?]
  induction checks with
  | nil => rfl
  | cons check rest ih => cases check <;> simp only [Check.renameAll, List.findSome?_cons, ih]

theorem taggedAt_renameAll (index : Nat) (arms : List Arm) :
    taggedAt path index (renameAll rename arms) = taggedAt path index arms := by
  induction arms generalizing index with
  | nil => rfl
  | cons arm rest ih =>
    obtain ⟨alternative, checks, slots⟩ := arm
    simp only [renameAll, taggedAt, tagAt?_rename path alternative checks slots, ih]

theorem untaggedAt_renameAll (index : Nat) (arms : List Arm) :
    untaggedAt path index (renameAll rename arms) = untaggedAt path index arms := by
  induction arms generalizing index with
  | nil => rfl
  | cons arm rest ih =>
    obtain ⟨alternative, checks, slots⟩ := arm
    simp only [renameAll, untaggedAt, tagAt?_rename path alternative checks slots, ih]

theorem length_renameAll (arms : List Arm) : (renameAll rename arms).length = arms.length := by
  induction arms with
  | nil => rfl
  | cons arm rest ih =>
    obtain ⟨alternative, checks, slots⟩ := arm
    simp only [renameAll, List.length_cons, ih]

end Arm

theorem Dispatch.ofArms?_rename (arms : List Arm) (path : Path) :
    ofArms? (Arm.renameAll rename arms) path = ofArms? arms path := by
  simp only [ofArms?, Arm.taggedAt_renameAll, Arm.untaggedAt_renameAll]

end Procedures

section Emission

namespace Evidence

variable (evidence : Evidence)

theorem sites_rename (name : Name) :
    (evidence.rename rename).sites name = (evidence.sites name).map (BindingSite.rename rename) :=
  List.filter_map

theorem site?_rename (name : Name) (alternative : Nat) :
    (evidence.rename rename).site? name alternative =
      (evidence.site? name alternative).map (BindingSite.rename rename) := by
  rw [site?, sites_rename, List.find?_map]
  rfl

theorem nested?_rename (alternative : Nat) (path : Path) :
    (evidence.rename rename).nested? alternative path =
      (evidence.nested? alternative path).map (Compiled.rename rename) := by
  simp only [nested?, Evidence.rename, Findings.rename, List.filter_map, List.getLast?_map,
    Option.map_map]
  rfl

end Evidence

theorem BindingSite.effective_rename (rename : Ty → Ty) (site : BindingSite) :
    (site.rename rename).effective = rename site.effective := by
  cases hascription : site.ascription <;> simp [effective, BindingSite.rename, hascription]

namespace EmitContext

theorem slot_rename (hinjective : Function.Injective rename) (context : EmitContext) (name : Name)
    (path : Path) (span : Span) :
    (context.rename rename).slot name path span =
      renameResult rename (Slot.rename rename) (context.slot name path span) := by
  simp only [slot, EmitContext.rename, Evidence.site?_rename, Environment.type?_rename]
  cases context.evidence.site? name context.alternative with
  | none => exact congrArg Except.error (Rejection.rename_ofFault _ span).symm
  | some site =>
    cases context.environment.type? name with
    | none => exact congrArg Except.error (Rejection.rename_ofFault _ span).symm
    | some exposed =>
      simp only [Option.map_some, BindingSite.effective_rename,
        Conversion.between_rename hinjective, renameResult, Slot.rename]

theorem nestedCheck_rename (hinjective : Function.Injective rename) (context : EmitContext)
    (path : Path) (span : Span) :
    (do
      let check ← (context.rename rename).nestedCheck path span
      return { checks := [check] }) =
      renameResult rename (ArmParts.rename rename) (do
        let check ← context.nestedCheck path span
        return { checks := [check] }) := by
  simp only [nestedCheck, EmitContext.rename, Evidence.nested?_rename]
  cases context.evidence.nested? context.alternative path with
  | none => exact congrArg Except.error (Rejection.rename_ofFault _ span).symm
  | some compiled =>
    have hretarget := compiled.procedure.rename_retarget hinjective context.environment
    simp only [Option.map_some, Compiled.rename, ← hretarget]
    rfl

end EmitContext

namespace Pattern

mutual

theorem armParts_rename (hinjective : Function.Injective rename) (context : EmitContext) :
    ∀ (pattern : Pattern) (path : Path), pattern.armParts (context.rename rename) path =
      renameResult rename (ArmParts.rename rename) (pattern.armParts context path)
  | wildcard _, _ => rfl
  | bind name _ span, path => by
    simp only [armParts, EmitContext.slot_rename hinjective]
    exact renameResult_bind fun _ => rfl
  | literal value _, _ => rfl
  | variant tag inner _, path => by
    simp only [armParts, armParts_rename hinjective context inner]
    exact renameResult_bind fun parts =>
      congrArg Except.ok (ArmParts.rename_append { checks := [.tag path tag] } parts).symm
  | tuple elements _, path => armPartsElements_rename hinjective context elements 0 path
  | record fields _ _, path => armPartsFields_rename hinjective context fields path
  | or _ span, path => by
    simp only [armParts]
    exact EmitContext.nestedCheck_rename hinjective context path span

theorem armPartsElements_rename (hinjective : Function.Injective rename) (context : EmitContext) :
    ∀ (elements : List Pattern) (index : Nat) (path : Path),
      armPartsElements (context.rename rename) elements index path =
        renameResult rename (ArmParts.rename rename) (armPartsElements context elements index path)
  | [], _, _ => rfl
  | element :: rest, index, path => by
    simp only [armPartsElements, armParts_rename hinjective context element,
      armPartsElements_rename hinjective context rest]
    exact renameResult_bind fun first => renameResult_bind fun others =>
      congrArg Except.ok (ArmParts.rename_append first others).symm

theorem armPartsFields_rename (hinjective : Function.Injective rename) (context : EmitContext) :
    ∀ (fields : List (FieldOf Pattern)) (path : Path),
      armPartsFields (context.rename rename) fields path =
        renameResult rename (ArmParts.rename rename) (armPartsFields context fields path)
  | [], _ => rfl
  | ⟨name, pattern, _⟩ :: rest, path => by
    simp only [armPartsFields, armParts_rename hinjective context pattern,
      armPartsFields_rename hinjective context rest]
    exact renameResult_bind fun first => renameResult_bind fun others =>
      congrArg Except.ok (ArmParts.rename_append first others).symm

end

end Pattern

namespace Evidence

theorem emitArms_rename (hinjective : Function.Injective rename) (evidence : Evidence)
    (environment : Environment) (base : Path)
    (alternatives : List Pattern) (index : Nat) :
    (evidence.rename rename).emitArms (environment.rename rename) base alternatives index =
      renameResult rename (Arm.renameAll rename)
        (evidence.emitArms environment base alternatives index) := by
  induction alternatives generalizing index with
  | nil => rfl
  | cons pattern rest ih =>
    have hparts := Pattern.armParts_rename hinjective ⟨evidence, environment, index⟩ pattern base
    simp only [EmitContext.rename] at hparts
    simp only [emitArms, hparts, ih]
    exact renameResult_bind fun parts => renameResult_bind fun others => rfl

/-- The procedure is the same whatever the numbers of the types are. -/
theorem emit_rename (hinjective : Function.Injective rename) (options : Options)
    (evidence : Evidence) (environment : Environment) (base : Path)
    (alternatives : List Pattern) :
    (evidence.rename rename).emit options (environment.rename rename) base alternatives =
      renameResult rename (Procedure.rename rename)
        (evidence.emit options environment base alternatives) := by
  simp only [emit, emitArms_rename hinjective]
  refine renameResult_bind fun arms => ?_
  simp only [Arm.length_renameAll, Dispatch.ofArms?_rename, Environment.names_rename]
  rfl

end Evidence

end Emission

end OrPattern
