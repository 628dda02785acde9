import OrPattern.Proofs.Dispatch.Faithful

namespace OrPattern

open Attempt

variable {options : Options} {pool later : Pool}

theorem Check.allFaithful_append {checks others : List Check} (hchecks : AllFaithful checks)
    (hothers : AllFaithful others) : AllFaithful (checks ++ others) := by
  intro path procedure hmem
  exact (List.mem_append.mp hmem).elim (hchecks path procedure) (hothers path procedure)

/-- The nested or-patterns that were found were compiled to faithful
    procedures. -/
def Findings.AllFaithful (findings : Findings) : Prop :=
  ∀ nested ∈ findings.nested, nested.compiled.procedure.Faithful

theorem Findings.allFaithful_append {findings others : Findings} (hfindings : findings.AllFaithful)
    (hothers : others.AllFaithful) : (findings ++ others).AllFaithful := by
  intro nested hmem
  exact (List.mem_append.mp hmem).elim (hfindings nested) (hothers nested)

theorem Evidence.mem_of_nested? {evidence : Evidence} {alternative : Nat} {path : Path}
    {compiled : Compiled} (hnested : evidence.nested? alternative path = some compiled) :
    ⟨alternative, path, compiled⟩ ∈ evidence.findings.nested := by
  obtain ⟨nested, hlast, rfl⟩ := Option.map_eq_some_iff.mp hnested
  obtain ⟨hmem, hkey⟩ := List.mem_filter.mp (List.mem_of_getLast? hlast)
  obtain ⟨halternative, hpath⟩ := Bool.and_eq_true_iff.mp hkey
  cases of_decide_eq_true halternative
  cases of_decide_eq_true hpath
  exact hmem

/-- An arm nests the procedures that were compiled before, seen at other types. -/
theorem Pattern.armParts_allFaithful {context : EmitContext}
    (hfindings : context.evidence.findings.AllFaithful) (pattern : Pattern) (path : Path)
    (parts : ArmParts) (hparts : pattern.armParts context path = .ok parts) :
    Check.AllFaithful parts.checks := by
  induction pattern using inductParts generalizing path parts with
  | wildcard span =>
    cases hparts
    exact nofun
  | bind name ascription span =>
    obtain ⟨slot, -, hslot⟩ := Except.bind_eq_ok_iff.mp hparts
    cases hslot
    exact nofun
  | literal value span =>
    cases hparts
    intro path procedure hmem
    exact absurd (List.mem_singleton.mp hmem) nofun
  | branch pattern hbranch ih =>
    obtain ⟨inner, hinner, rfl⟩ := (armParts_branch_eq_ok_iff hbranch).mp hparts
    have hown : Check.AllFaithful (pattern.ownParts path).checks := by
      cases pattern with
      | variant tag inner span =>
        intro path procedure hmem
        exact absurd (List.mem_singleton.mp hmem) nofun
      | _ => exact nofun
    refine Check.allFaithful_append hown ?_
    refine hinner.fold (P := fun parts => Check.AllFaithful parts.checks) nofun
      (fun _ _ => Check.allFaithful_append) fun part hmem found hfound => ?_
    exact ih part hmem _ found hfound
  | or alternatives span _ =>
    obtain ⟨check, hcheck, hparts⟩ := Except.bind_eq_ok_iff.mp hparts
    cases hparts
    obtain ⟨compiled, hnested, rfl⟩ := EmitContext.nestedCheck_eq_ok_iff.mp hcheck
    intro place procedure hmem
    cases List.mem_singleton.mp hmem
    exact (hfindings _ (Evidence.mem_of_nested? hnested)).retarget context.environment

namespace Evidence

theorem emitArms_allFaithful {evidence : Evidence} {environment : Environment} {base : Path}
    (hfindings : evidence.findings.AllFaithful) {alternatives : List Pattern} {index : Nat}
    {arms : List Arm}
    (harms : evidence.emitArms environment base alternatives index = .ok arms) :
    ∀ arm ∈ arms, Check.AllFaithful arm.checks := by
  induction alternatives generalizing index arms with
  | nil =>
    cases harms
    exact nofun
  | cons pattern rest ih =>
    obtain ⟨parts, hparts, hrest⟩ := Except.bind_eq_ok_iff.mp harms
    obtain ⟨others, hothers, hresult⟩ := Except.bind_eq_ok_iff.mp hrest
    cases hresult
    intro arm hmem
    rcases List.mem_cons.mp hmem with rfl | hmem
    · exact pattern.armParts_allFaithful hfindings base parts hparts
    · exact ih hothers arm hmem

theorem emit_faithful {evidence : Evidence} {environment : Environment} {base : Path}
    (hfindings : evidence.findings.AllFaithful) {alternatives : List Pattern}
    {procedure : Procedure}
    (hemit : evidence.emit options environment base alternatives = .ok procedure) :
    procedure.Faithful := by
  obtain ⟨arms, harms, hresult⟩ := Except.bind_eq_ok_iff.mp hemit
  cases hresult
  refine Procedure.faithful_iff.mpr ⟨fun dispatch hdispatch => ?_, emitArms_allFaithful hfindings harms⟩
  simp only at hdispatch ⊢
  split at hdispatch
  · have hpath : dispatch.path = base := by
      unfold Dispatch.ofArms? at hdispatch
      split at hdispatch
      · cases hdispatch
      · cases hdispatch
        rfl
    rw [hpath]
    exact hdispatch
  · cases hdispatch

end Evidence

/-- Nested or-patterns are compiled to faithful procedures. -/
theorem Pattern.collect_allFaithful (pattern : Pattern) (context : CollectContext) (expected : Ty)
    (path : Path) (pool : Pool) (findings : Findings) (later : Pool)
    (hcollect : (pattern.collect options context expected path).Yields pool findings later) :
    findings.AllFaithful := by
  induction pattern using inductParts generalizing context expected path pool findings later with
  | wildcard span =>
    obtain ⟨rfl, -⟩ := collect_wildcard_yields_iff.mp hcollect
    exact nofun
  | bind name ascription span =>
    obtain ⟨site, -, rfl, -⟩ := collect_bind_yields_iff.mp hcollect
    exact nofun
  | literal value span =>
    obtain ⟨-, rfl, -⟩ := collect_literal_yields_iff.mp hcollect
    exact nofun
  | branch pattern hbranch ih =>
    obtain ⟨-, hparts⟩ := (collect_branch_yields_iff hbranch).mp hcollect
    refine hparts.fold (R := fun _ findings _ => findings.AllFaithful) (fun _ => nofun)
      Findings.allFaithful_append ?_
    exact fun part hmem type start found next _ => ih part hmem context type _ start found next
  | or alternatives span ih =>
    obtain ⟨-, _, inner, _, compiled, sites, hcompiles, -, rfl⟩ := collect_or_yields_iff.mp hcollect
    have hinner : inner.AllFaithful := by
      refine collectAlternatives_fold (R := fun _ findings _ => findings.AllFaithful)
        hcompiles.collected (fun _ => nofun) Findings.allFaithful_append ?_
      intro offset pattern start found next hpattern
      exact ih pattern (List.mem_of_getElem? hpattern) _ _ _ start found next
    intro nested hmem
    cases List.mem_singleton.mp hmem
    exact Evidence.emit_faithful hinner hcompiles.emitted

theorem CompilesTo.faithful {alternatives : List Pattern} {expected : Ty} {base : Path} {span : Span}
    {certificate : Certificate} {findings : Findings} {middle : Pool} {compiled : Compiled}
    (hcompiles : CompilesTo options alternatives expected base span pool certificate findings middle
      compiled later) : compiled.procedure.Faithful := by
  refine Evidence.emit_faithful ?_ hcompiles.emitted
  refine Pattern.collectAlternatives_fold (R := fun _ findings _ => findings.AllFaithful)
    hcompiles.collected (fun _ => nofun) Findings.allFaithful_append ?_
  exact fun _ pattern start found next _ => pattern.collect_allFaithful _ _ _ start found next

theorem Pattern.runOn_plain (pattern : Pattern) (scrutinee : Ty) (pool : Pool) (options : Options) :
    (pattern.compile .plain scrutinee).runOn pool =
      (((pattern.compile options scrutinee).runOn pool).1.map Compiled.eraseDispatch,
        ((pattern.compile options scrutinee).runOn pool).2) := by
  rw [pattern.compile_plain options scrutinee, runOn_map]

theorem Pattern.faithful_of_compile {pattern : Pattern} {scrutinee : Ty} {pool : Pool}
    {compiled : Compiled} (hcompile : ((pattern.compile options scrutinee).runOn pool).1 = .ok compiled) :
    compiled.procedure.Faithful := by
  have hyields : (pattern.compile options scrutinee).Yields pool compiled
      ((pattern.compile options scrutinee).runOn pool).2 := Prod.ext hcompile rfl
  obtain ⟨-, _, _, _, hcompiles⟩ := compile_yields_iff.mp hyields
  exact hcompiles.faithful

/-- Options change neither whether a pattern compiles nor what it means. Under any
    two of them a pattern is rejected for the same reason, or it gets the same
    environment and procedures that differ in their dispatch only. Either
    procedure chooses for every value, typed or not, what the one without any
    dispatch chooses, tried with or without its dispatch, and no dispatch in it
    points past the arms it stands beside. -/
theorem compile_options_irrelevant (pool : Pool) (pattern : Pattern) (scrutinee : Ty)
    (one other : Options) :
    ((pattern.compile one scrutinee).runOn pool).2 =
        ((pattern.compile other scrutinee).runOn pool).2 ∧
      ((∃ rejection, ((pattern.compile one scrutinee).runOn pool).1 = .error rejection ∧
          ((pattern.compile other scrutinee).runOn pool).1 = .error rejection) ∨
        ∃ first second, ((pattern.compile one scrutinee).runOn pool).1 = .ok first ∧
          ((pattern.compile other scrutinee).runOn pool).1 = .ok second ∧
          first.environment = second.environment ∧
          first.procedure.eraseDispatch = second.procedure.eraseDispatch ∧
          ∀ procedure ∈ [first.procedure, second.procedure],
            (∀ root, procedure.select root = procedure.eraseDispatch.selectLinear root ∧
              procedure.selectLinear root = procedure.eraseDispatch.selectLinear root) ∧
            ∀ inner, procedure.Encloses inner → ∀ dispatch ∈ inner.dispatch, ∀ index,
              (index ∈ dispatch.untagged ∨ ∃ tag, (tag, index) ∈ dispatch.tagged) →
                index < inner.arms.length) := by
  have hplain := pattern.runOn_plain scrutinee pool
  obtain ⟨hresult, hpool⟩ := Prod.mk.inj ((hplain one).symm.trans (hplain other))
  refine ⟨hpool, ?_⟩
  cases hone : ((pattern.compile one scrutinee).runOn pool).1 with
  | error rejection =>
    cases hother : ((pattern.compile other scrutinee).runOn pool).1 with
    | error reason =>
      rw [hone, hother] at hresult
      cases hresult
      exact .inl ⟨rejection, rfl, rfl⟩
    | ok second =>
      rw [hone, hother] at hresult
      cases hresult
  | ok first =>
    cases hother : ((pattern.compile other scrutinee).runOn pool).1 with
    | error reason =>
      rw [hone, hother] at hresult
      cases hresult
    | ok second =>
      rw [hone, hother] at hresult
      have herased : first.eraseDispatch = second.eraseDispatch := Except.ok.inj hresult
      obtain ⟨hprocedure, henvironment⟩ := Compiled.mk.inj herased
      refine .inr ⟨first, second, rfl, rfl, henvironment, hprocedure, fun procedure hmem => ?_⟩
      have hfaithful : procedure.Faithful := by
        rcases List.mem_cons.mp hmem with rfl | hmem
        · exact Pattern.faithful_of_compile hone
        · exact List.mem_singleton.mp hmem ▸ Pattern.faithful_of_compile hother
      refine ⟨fun root => ⟨hfaithful.select_eq root, hfaithful.selectLinear_eq root⟩, ?_⟩
      exact fun inner hinner dispatch hdispatch index => hfaithful.index_lt hinner hdispatch

end OrPattern
