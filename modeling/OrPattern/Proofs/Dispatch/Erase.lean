import OrPattern.Compile

namespace OrPattern

mutual

/-- The procedure without any dispatch, at every depth. -/
def Procedure.eraseDispatch : Procedure → Procedure
  | ⟨arms, _, names⟩ => ⟨Arm.eraseDispatchAll arms, none, names⟩

def Arm.eraseDispatchAll : List Arm → List Arm
  | [] => []
  | ⟨alternative, checks, slots⟩ :: rest =>
    ⟨alternative, Check.eraseDispatchAll checks, slots⟩ :: Arm.eraseDispatchAll rest

def Check.eraseDispatchAll : List Check → List Check
  | [] => []
  | .firstOf path procedure :: rest =>
    .firstOf path procedure.eraseDispatch :: Check.eraseDispatchAll rest
  | .tag path tag :: rest => .tag path tag :: Check.eraseDispatchAll rest
  | .literal path value :: rest => .literal path value :: Check.eraseDispatchAll rest

end

def Compiled.eraseDispatch (compiled : Compiled) : Compiled :=
  { compiled with procedure := compiled.procedure.eraseDispatch }

def NestedPattern.eraseDispatch (nested : NestedPattern) : NestedPattern :=
  { nested with compiled := nested.compiled.eraseDispatch }

def Findings.eraseDispatch (findings : Findings) : Findings :=
  { findings with nested := findings.nested.map NestedPattern.eraseDispatch }

def Evidence.eraseDispatch (evidence : Evidence) : Evidence :=
  { evidence with findings := evidence.findings.eraseDispatch }

def EmitContext.eraseDispatch (context : EmitContext) : EmitContext :=
  { context with evidence := context.evidence.eraseDispatch }

def ArmParts.eraseDispatch (parts : ArmParts) : ArmParts :=
  { parts with checks := Check.eraseDispatchAll parts.checks }

/-- The options under which no dispatch is made. -/
def Options.plain : Options := { tagDispatch := false }

theorem Options.wantsDispatch_plain (arms : Nat) : Options.plain.wantsDispatch arms = false := rfl

mutual

theorem Procedure.eraseDispatch_retarget (environment : Environment) :
    ∀ procedure : Procedure, (procedure.retarget environment).eraseDispatch =
      procedure.eraseDispatch.retarget environment
  | ⟨arms, dispatch, names⟩ => by
    simp only [Procedure.retarget, Procedure.eraseDispatch,
      Arm.eraseDispatchAll_retargetAll environment arms]

theorem Arm.eraseDispatchAll_retargetAll (environment : Environment) :
    ∀ arms : List Arm, Arm.eraseDispatchAll (Arm.retargetAll environment arms) =
      Arm.retargetAll environment (Arm.eraseDispatchAll arms)
  | [] => rfl
  | ⟨alternative, checks, slots⟩ :: rest => by
    simp only [Arm.retargetAll, Arm.eraseDispatchAll,
      Check.eraseDispatchAll_retargetAll environment checks,
      Arm.eraseDispatchAll_retargetAll environment rest]

theorem Check.eraseDispatchAll_retargetAll (environment : Environment) :
    ∀ checks : List Check, Check.eraseDispatchAll (Check.retargetAll environment checks) =
      Check.retargetAll environment (Check.eraseDispatchAll checks)
  | [] => rfl
  | .firstOf path procedure :: rest => by
    simp only [Check.retargetAll, Check.eraseDispatchAll,
      Procedure.eraseDispatch_retarget environment procedure,
      Check.eraseDispatchAll_retargetAll environment rest]
  | .tag path tag :: rest => by
    simp only [Check.retargetAll, Check.eraseDispatchAll,
      Check.eraseDispatchAll_retargetAll environment rest]
  | .literal path value :: rest => by
    simp only [Check.retargetAll, Check.eraseDispatchAll,
      Check.eraseDispatchAll_retargetAll environment rest]

end

mutual

theorem Procedure.bindingPath?_eraseDispatch (name : Name) :
    ∀ procedure : Procedure, procedure.eraseDispatch.bindingPath? name = procedure.bindingPath? name
  | ⟨[], _, _⟩ => rfl
  | ⟨⟨_, checks, slots⟩ :: _, _, _⟩ => by
    simp only [Procedure.eraseDispatch, Arm.eraseDispatchAll, Procedure.bindingPath?,
      Check.bindingPath?_eraseDispatchAll name checks]

theorem Check.bindingPath?_eraseDispatchAll (name : Name) :
    ∀ checks : List Check,
      Check.bindingPath? name (Check.eraseDispatchAll checks) = Check.bindingPath? name checks
  | [] => rfl
  | .firstOf path procedure :: rest => by
    simp only [Check.eraseDispatchAll, Check.bindingPath?,
      Procedure.bindingPath?_eraseDispatch name procedure,
      Check.bindingPath?_eraseDispatchAll name rest]
  | .tag path tag :: rest => by
    simp only [Check.eraseDispatchAll, Check.bindingPath?,
      Check.bindingPath?_eraseDispatchAll name rest]
  | .literal path value :: rest => by
    simp only [Check.eraseDispatchAll, Check.bindingPath?,
      Check.bindingPath?_eraseDispatchAll name rest]

end

theorem Check.eraseDispatchAll_append (checks others : List Check) :
    Check.eraseDispatchAll (checks ++ others) =
      Check.eraseDispatchAll checks ++ Check.eraseDispatchAll others := by
  induction checks with
  | nil => rfl
  | cons check rest ih =>
    cases check <;> simp only [List.cons_append, Check.eraseDispatchAll, ih]

theorem ArmParts.eraseDispatch_append (parts others : ArmParts) :
    (parts ++ others).eraseDispatch = parts.eraseDispatch ++ others.eraseDispatch :=
  congrArg (fun checks => ArmParts.mk checks (parts.slots ++ others.slots))
    (Check.eraseDispatchAll_append parts.checks others.checks)

theorem Findings.eraseDispatch_append (findings others : Findings) :
    (findings ++ others).eraseDispatch = findings.eraseDispatch ++ others.eraseDispatch :=
  congrArg (Findings.mk (findings.sites ++ others.sites)) List.map_append

namespace Evidence

theorem nested?_eraseDispatch (evidence : Evidence) (alternative : Nat) (path : Path) :
    evidence.eraseDispatch.nested? alternative path =
      (evidence.nested? alternative path).map Compiled.eraseDispatch := by
  simp only [nested?, eraseDispatch, Findings.eraseDispatch, List.filter_map, List.getLast?_map,
    Option.map_map]
  rfl

theorem reconcile_eraseDispatch (evidence : Evidence) (span : Span) :
    evidence.eraseDispatch.reconcile span = evidence.reconcile span := by
  suffices h : ∀ (names : List Name) (environment : Environment),
      evidence.eraseDispatch.reconcileNames span names environment =
        evidence.reconcileNames span names environment from h _ _
  intro names
  induction names with
  | nil => exact fun _ => rfl
  | cons name names ih =>
    intro environment
    simp only [reconcileNames, ih]
    rfl

end Evidence

theorem EmitContext.nestedCheck_eraseDispatch (context : EmitContext) (path : Path) (span : Span) :
    context.eraseDispatch.nestedCheck path span =
      (context.nestedCheck path span).map fun check => match check with
        | .firstOf path procedure => .firstOf path procedure.eraseDispatch
        | check => check := by
  simp only [nestedCheck, eraseDispatch, Evidence.nested?_eraseDispatch]
  cases context.evidence.nested? context.alternative path with
  | none => rfl
  | some compiled =>
    simp only [Option.map_some, Compiled.eraseDispatch, Except.map,
      Procedure.eraseDispatch_retarget]

namespace Pattern

mutual

theorem armParts_eraseDispatch (context : EmitContext) :
    ∀ (pattern : Pattern) (path : Path), pattern.armParts context.eraseDispatch path =
      ArmParts.eraseDispatch <$> pattern.armParts context path
  | wildcard _, _ => rfl
  | bind name _ span, path => by
    simp only [armParts, map_bind]
    rfl
  | literal value _, _ => rfl
  | variant tag inner _, path => by
    simp only [armParts, armParts_eraseDispatch context inner, map_bind, bind_map_left, map_pure,
      ArmParts.eraseDispatch_append]
    rfl
  | tuple elements _, path => armPartsElements_eraseDispatch context elements 0 path
  | record fields _ _, path => armPartsFields_eraseDispatch context fields path
  | or _ span, path => by
    simp only [armParts, EmitContext.nestedCheck_eraseDispatch]
    cases context.nestedCheck path span with
    | error _ => rfl
    | ok check => cases check <;> rfl

theorem armPartsElements_eraseDispatch (context : EmitContext) :
    ∀ (elements : List Pattern) (index : Nat) (path : Path),
      armPartsElements context.eraseDispatch elements index path =
        ArmParts.eraseDispatch <$> armPartsElements context elements index path
  | [], _, _ => rfl
  | element :: rest, index, path => by
    simp only [armPartsElements, armParts_eraseDispatch context element,
      armPartsElements_eraseDispatch context rest, map_bind, bind_map_left, map_pure,
      ArmParts.eraseDispatch_append]

theorem armPartsFields_eraseDispatch (context : EmitContext) :
    ∀ (fields : List (FieldOf Pattern)) (path : Path),
      armPartsFields context.eraseDispatch fields path =
        ArmParts.eraseDispatch <$> armPartsFields context fields path
  | [], _ => rfl
  | ⟨name, pattern, _⟩ :: rest, path => by
    simp only [armPartsFields, armParts_eraseDispatch context pattern,
      armPartsFields_eraseDispatch context rest, map_bind, bind_map_left, map_pure,
      ArmParts.eraseDispatch_append]

end

end Pattern

namespace Evidence

theorem emitArms_eraseDispatch (evidence : Evidence) (environment : Environment) (base : Path)
    (alternatives : List Pattern) (index : Nat) :
    evidence.eraseDispatch.emitArms environment base alternatives index =
      Arm.eraseDispatchAll <$> evidence.emitArms environment base alternatives index := by
  induction alternatives generalizing index with
  | nil => rfl
  | cons pattern rest ih =>
    have hparts := Pattern.armParts_eraseDispatch ⟨evidence, environment, index⟩ pattern base
    simp only [EmitContext.eraseDispatch] at hparts
    simp only [emitArms, hparts, ih, map_bind, bind_map_left, map_pure]
    rfl

/-- Without dispatch the procedure is the same but for the dispatch. -/
theorem emit_plain (options : Options) (evidence : Evidence) (environment : Environment)
    (base : Path) (alternatives : List Pattern) :
    evidence.eraseDispatch.emit .plain environment base alternatives =
      Procedure.eraseDispatch <$> evidence.emit options environment base alternatives := by
  simp only [emit, emitArms_eraseDispatch, bind_map_left, map_bind, map_pure,
    Options.wantsDispatch_plain, Bool.false_eq_true, if_false, Procedure.eraseDispatch]

end Evidence

/-- Compiling without dispatch gives the same but for the dispatch, if that
    holds of what is collected. -/
theorem compileWith_plain (options : Options) (alternatives : List Pattern) (base : Path)
    (span : Span) (collect plain : Certificate → Attempt Findings)
    (hplain : ∀ certificate, plain certificate = Findings.eraseDispatch <$> collect certificate) :
    compileWith .plain alternatives base span plain =
      Compiled.eraseDispatch <$> compileWith options alternatives base span collect := by
  have hevidence : ∀ (certificate : Certificate) (count : Nat) (findings : Findings),
      certificate.evidence count findings.eraseDispatch =
        (certificate.evidence count findings).eraseDispatch := fun _ _ _ => rfl
  simp only [compileWith, hplain, map_bind, bind_map_left, hevidence,
    Evidence.reconcile_eraseDispatch]
  refine bind_congr fun certificate => bind_congr fun findings => bind_congr fun environment => ?_
  rw [Evidence.emit_plain options]
  cases (certificate.evidence alternatives.length findings).emit options environment base
    alternatives <;> rfl

theorem compileOrWith_plain (options : Options) (alternatives : List Pattern) (base : Path)
    (span : Span) (collect plain : Certificate → Attempt Findings)
    (hplain : ∀ certificate, plain certificate = Findings.eraseDispatch <$> collect certificate) :
    compileOrWith .plain alternatives base span plain =
      Compiled.eraseDispatch <$> compileOrWith options alternatives base span collect := by
  unfold compileOrWith
  split
  · rfl
  · exact compileWith_plain options alternatives base span collect plain hplain

namespace Pattern

mutual

theorem collect_plain (options : Options) :
    ∀ (pattern : Pattern) (context : CollectContext) (expected : Ty) (path : Path),
      pattern.collect .plain context expected path =
        Findings.eraseDispatch <$> pattern.collect options context expected path
  | wildcard _, _, _, _ => rfl
  | bind name ascription span, context, expected, path => by
    simp only [collect, map_bind]
    rfl
  | literal value span, context, expected, path => by
    simp only [collect, map_bind]
    refine bind_congr fun pool => ?_
    split <;> rfl
  | variant tag inner span, context, expected, path => by
    simp only [collect, map_bind]
    refine bind_congr fun pool => ?_
    split
    · rfl
    · split
      · rfl
      · exact collect_plain options inner context _ _
  | tuple elements span, context, expected, path => by
    simp only [collect, map_bind]
    refine bind_congr fun pool => ?_
    split
    · rfl
    · split
      · exact collectElements_plain options elements context _ 0 path
      · rfl
  | record fields rest span, context, expected, path => by
    simp only [collect, map_bind]
    refine bind_congr fun pool => ?_
    split
    · rfl
    · rw [collectFields_plain options fields, bind_map_left, map_bind]
      refine bind_congr fun findings => ?_
      split <;> rfl
  | or alternatives span, context, expected, path => by
    simp only [collect]
    rw [compileOrWith_plain options alternatives path span _ _ fun certificate =>
      collectAlternatives_plain options alternatives certificate 0 expected path]
    simp only [bind_map_left, map_bind, Compiled.eraseDispatch]
    refine bind_congr fun compiled => ?_
    have hsites : ∀ entries, context.nestedSites compiled.procedure.eraseDispatch span entries =
        context.nestedSites compiled.procedure span entries := by
      intro entries
      induction entries with
      | nil => rfl
      | cons entry rest ih =>
        simp only [CollectContext.nestedSites, Procedure.bindingPath?_eraseDispatch, ih]
    rw [hsites]
    rfl

theorem collectElements_plain (options : Options) :
    ∀ (elements : List Pattern) (context : CollectContext) (types : List Ty) (index : Nat)
      (path : Path), collectElements .plain elements context types index path =
        Findings.eraseDispatch <$> collectElements options elements context types index path
  | [], _, _, _, _ => by
    simp only [collectElements]
    rfl
  | _ :: _, _, [], _, _ => by
    simp only [collectElements]
    rfl
  | element :: rest, context, type :: types, index, path => by
    simp only [collectElements, collect_plain options element, collectElements_plain options rest,
      map_bind, bind_map_left, map_pure, Findings.eraseDispatch_append]

theorem collectFields_plain (options : Options) :
    ∀ (fields : List (FieldOf Pattern)) (context : CollectContext) (expected : Ty)
      (types : List (Name × Ty)) (path : Path),
      collectFields .plain fields context expected types path =
        Findings.eraseDispatch <$> collectFields options fields context expected types path
  | [], _, _, _, _ => rfl
  | ⟨name, pattern, span⟩ :: rest, context, expected, types, path => by
    simp only [collectFields]
    split
    · rfl
    · simp only [collect_plain options pattern, collectFields_plain options rest,
        map_bind, bind_map_left, map_pure, Findings.eraseDispatch_append]

theorem collectAlternatives_plain (options : Options) :
    ∀ (alternatives : List Pattern) (certificate : Certificate) (index : Nat) (expected : Ty)
      (base : Path), collectAlternatives .plain alternatives certificate index expected base =
        Findings.eraseDispatch <$>
          collectAlternatives options alternatives certificate index expected base
  | [], _, _, _, _ => rfl
  | pattern :: rest, certificate, index, expected, base => by
    simp only [collectAlternatives, collect_plain options pattern,
      collectAlternatives_plain options rest, map_bind, bind_map_left, map_pure,
      Findings.eraseDispatch_append]

end

/-- Whatever the options, compiling gives what it gives without dispatch, but for
    the dispatch. -/
theorem compile_plain (options : Options) (pattern : Pattern) (scrutinee : Ty) :
    pattern.compile .plain scrutinee =
      Compiled.eraseDispatch <$> pattern.compile options scrutinee := by
  unfold compile
  split
  · exact compileOrWith_plain options _ [] _ _ _ fun certificate =>
      collectAlternatives_plain options _ certificate 0 scrutinee []
  · exact compileWith_plain options _ [] _ _ _ fun certificate =>
      collectAlternatives_plain options _ certificate 0 scrutinee []

end Pattern

end OrPattern
