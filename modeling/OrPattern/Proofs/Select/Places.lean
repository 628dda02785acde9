import OrPattern.Proofs.Compile.Emitted
import OrPattern.Proofs.Select.Arranged
import OrPattern.Proofs.Select.Leftmost

namespace OrPattern

open Attempt

variable {options : Options} {pool later : Pool} {expected : Ty} {root : Value}

/-- The bindings are the names of these places with the components of a value
    there, up to order. -/
def ReadAt (root : Value) (places : List (Name × Path)) (bindings : List BoundValue) : Prop :=
  (bindings.map fun bound => (bound.name, some bound.value)).Perm
    (places.map fun place => (place.1, root.at? place.2))

namespace ReadAt

variable {places others : List (Name × Path)} {bindings rest : List BoundValue}

theorem nil : ReadAt root [] [] := List.Perm.nil

theorem append (hbindings : ReadAt root places bindings) (hrest : ReadAt root others rest) :
    ReadAt root (places ++ others) (bindings ++ rest) := by
  rw [ReadAt, List.map_append, List.map_append]
  exact List.Perm.append hbindings hrest

theorem of_perm (hbindings : ReadAt root places bindings) (hperm : rest.Perm bindings) :
    ReadAt root places rest :=
  (hperm.map _).trans hbindings

theorem of_places (hbindings : ReadAt root places bindings) (hperm : places.Perm others) :
    ReadAt root others bindings :=
  hbindings.trans (hperm.map _)

theorem retarget (hbindings : ReadAt root places bindings) (environment : Environment) :
    ReadAt root places (bindings.map (BoundValue.retarget environment)) := by
  simpa [ReadAt, Function.comp_def] using hbindings

end ReadAt

/-- Parts put together bind something only if each of them does. -/
theorem ArmParts.exists_of_bindings?_append {parts others : ArmParts} {bindings : List BoundValue}
    (hbound : (parts ++ others).bindings? root = some bindings) :
    ∃ first rest, parts.bindings? root = some first ∧ others.bindings? root = some rest ∧
      bindings.Perm (first ++ rest) := by
  have hperm : Option.Rel List.Perm (some bindings)
      (bothCaptures (parts.bindings? root) (others.bindings? root)) :=
    hbound ▸ bindings?_append_perm parts others
  cases hfirst : parts.bindings? root with
  | none =>
    rw [hfirst] at hperm
    cases hperm
  | some first =>
    cases hrest : others.bindings? root with
    | none =>
      rw [hfirst, hrest] at hperm
      cases hperm
    | some rest =>
      rw [hfirst, hrest] at hperm
      cases hperm with
      | some hperm => exact ⟨first, rest, rfl, rfl, hperm⟩

/-- The test of a variant binds nothing. -/
theorem ArmParts.eq_nil_of_ownParts {pattern : Pattern} {path : Path} {bindings : List BoundValue}
    (hbound : (pattern.ownParts path).bindings? root = some bindings) : bindings = [] := by
  cases pattern with
  | variant tag inner span =>
    simp only [Pattern.ownParts, ArmParts.bindings?, Check.bindings?] at hbound
    split at hbound
    · cases hbound
      rfl
    · cases hbound
  | wildcard | bind | literal | tuple | record | or =>
    cases hbound
    rfl

/-- The parts of a node read at their own places, if each part does. -/
theorem readAt_of_gathers {emit : EmitContext} {path : Path} {steps : List (Step × Pattern)}
    {parts : ArmParts} {bindings : List BoundValue}
    (hgathers : Gathers (fun step part => part.armParts emit (path ++ [step.clip])) {} steps parts)
    (hbound : parts.bindings? root = some bindings)
    (hsteps : ∀ part ∈ steps, ∀ piece found,
      part.2.armParts emit (path ++ [part.1.clip]) = .ok piece →
        piece.bindings? root = some found →
          ReadAt root (under (path ++ [part.1.clip]) part.2.bindings) found) :
    ReadAt root (under path (Pattern.bindingsParts steps)) bindings := by
  induction hgathers generalizing bindings with
  | nil =>
    cases hbound
    exact .nil
  | @cons step pattern steps first others head tail ih =>
    obtain ⟨found, rest, hfound, hrest, hperm⟩ := ArmParts.exists_of_bindings?_append hbound
    have hfirst := hsteps (step, pattern) List.mem_cons_self first found head hfound
    have hothers := ih hrest fun part hmem => hsteps part (List.mem_cons_of_mem _ hmem)
    rw [Pattern.bindingsParts, List.flatMap_cons, under_append, under_under]
    exact (hfirst.append hothers).of_perm hperm

theorem Arm.exists_of_mem_outcomes {names : List Name} {arms : List Arm} {selection : Selection}
    (hmem : some selection ∈ Arm.outcomes root names arms) :
    ∃ arm ∈ arms, ∃ bindings, (⟨arm.checks, arm.slots⟩ : ArmParts).bindings? root = some bindings ∧
      selection = ⟨arm.alternative, BoundValue.arrange names bindings⟩ := by
  induction arms with
  | nil => cases hmem
  | cons arm rest ih =>
    obtain ⟨alternative, checks, slots⟩ := arm
    rw [Arm.outcomes_cons names alternative ⟨checks, slots⟩] at hmem
    rcases List.mem_cons.mp hmem with hhead | htail
    · obtain ⟨bindings, hbound, hselection⟩ := Option.map_eq_some_iff.mp hhead.symm
      exact ⟨_, List.mem_cons_self, bindings, hbound, hselection.symm⟩
    · obtain ⟨arm, harm, hyielded⟩ := ih htail
      exact ⟨arm, List.mem_cons_of_mem _ harm, hyielded⟩

/-- What an arm yields comes from the alternative that it was emitted for. -/
theorem exists_of_mem_outcomes {evidence : Evidence} {environment : Environment} {base : Path}
    {names : List Name} {alternatives : List Pattern} {index : Nat} {arms : List Arm}
    {selection : Selection}
    (harms : evidence.emitArms environment base alternatives index = .ok arms)
    (hmem : some selection ∈ Arm.outcomes root names arms) :
    ∃ offset pattern parts bindings, alternatives[offset]? = some pattern ∧
      pattern.armParts ⟨evidence, environment, index + offset⟩ base = .ok parts ∧
      parts.bindings? root = some bindings ∧
      selection = ⟨index + offset, BoundValue.arrange names bindings⟩ := by
  obtain ⟨arm, harm, bindings, hbound, hselection⟩ := Arm.exists_of_mem_outcomes hmem
  obtain ⟨offset, pattern, parts, hpattern, hparts, rfl⟩ :=
    Evidence.exists_armParts_of_emitArms harms harm
  exact ⟨offset, pattern, parts, bindings, hpattern, hparts, hbound, hselection⟩

variable {alternatives : List Pattern} {path : Path} {span : Span} {certificate : Certificate}
  {findings : Findings} {middle : Pool} {compiled : Compiled} {selection : Selection}

/-- A selection reads where the first alternative binds, if every arm reads where
    its own alternative does. -/
theorem CompilesTo.readAt_of_alternatives
    (hdistinct : ∀ pattern ∈ alternatives, ∀ node ∈ pattern.nodes, node.StepsDistinct)
    (hcompiles : CompilesTo options alternatives expected path span pool certificate findings middle
      compiled later) (hselect : compiled.procedure.select root = some selection)
    (hpatterns : ∀ pattern ∈ alternatives, ∀ emit start parts bindings,
      Emitted options emit expected path start pattern parts → parts.bindings? root = some bindings →
        ReadAt root (under path pattern.bindings) bindings) :
    ReadAt root (under path (Pattern.bindingsFirst alternatives)) selection.bindings := by
  obtain ⟨arms, harms, hprocedure⟩ := Except.bind_eq_ok_iff.mp hcompiles.emitted
  have hmem := Procedure.mem_outcomes_of_select hselect
  rw [← Except.pure_eq_ok_iff.mp hprocedure] at hmem
  obtain ⟨offset, pattern, parts, bindings, hpattern, hparts, hbound, rfl⟩ :=
    exists_of_mem_outcomes harms hmem
  rw [Nat.zero_add] at hparts
  obtain ⟨start, hemitted⟩ := hcompiles.exists_emitted hdistinct hpattern hparts
  have hpatternMem := List.mem_of_getElem? hpattern
  obtain ⟨-, hagree, -⟩ := Pattern.certify_sound hcompiles.certified
  refine ((hpatterns pattern hpatternMem _ start parts bindings hemitted hbound).of_perm
    (BoundValue.arrange_perm _ bindings)).of_places ?_
  exact (hagree.bindings_perm hpatternMem).map _

/-- An arm reads each name of its pattern where the pattern binds it, whichever
    alternatives of its or-patterns accept the value. -/
theorem Emitted.readAt {emit : EmitContext} {pattern : Pattern} {parts : ArmParts}
    {bindings : List BoundValue} (hdistinct : ∀ node ∈ pattern.nodes, node.StepsDistinct)
    (hemitted : Emitted options emit expected path pool pattern parts)
    (hbound : parts.bindings? root = some bindings) :
    ReadAt root (under path pattern.bindings) bindings := by
  induction pattern using Pattern.inductParts generalizing emit expected path pool parts bindings with
  | wildcard span =>
    cases hemitted.emitted
    cases hbound
    exact .nil
  | bind name ascription span =>
    obtain ⟨exposed, -, rfl⟩ := hemitted.slot
    simp only [ArmParts.bindings?, Check.bindings?, List.mapM_cons, List.mapM_nil, Slot.read] at hbound
    cases hat : root.at? path with
    | none =>
      rw [hat] at hbound
      cases hbound
    | some value =>
      rw [hat] at hbound
      cases hbound
      simp [ReadAt, Pattern.bindings, under, hat]
  | literal literal span =>
    cases hemitted.emitted
    simp only [ArmParts.bindings?, Check.bindings?] at hbound
    split at hbound
    · cases hbound
      exact .nil
    · cases hbound
  | branch pattern hbranch ih =>
    obtain ⟨inner, rfl, hinner, hparts⟩ := hemitted.exists_parts hbranch
    obtain ⟨own, rest, hown, hrest, hperm⟩ := ArmParts.exists_of_bindings?_append hbound
    rw [ArmParts.eq_nil_of_ownParts hown, List.nil_append] at hperm
    rw [Pattern.bindings_branch hbranch]
    refine (readAt_of_gathers hinner hrest fun part hmem piece found hpiece hfound => ?_).of_perm hperm
    obtain ⟨type, start, hpart⟩ := hparts part hmem piece hpiece
    exact ih part hmem (Pattern.forall_nodes_of_part hdistinct hmem) hpart hfound
  | or alternatives span ih =>
    obtain ⟨certificate, findings, middle, compiled, later, hcompiles, rfl⟩ := hemitted.choices
    have hinner : ∀ pattern ∈ alternatives, ∀ node ∈ pattern.nodes, node.StepsDistinct :=
      Pattern.stepsDistinct_or_iff.mp hdistinct
    simp only [ArmParts.bindings?, Check.bindings?, Procedure.select_retarget] at hbound
    cases hselect : compiled.procedure.select root with
    | none =>
      rw [hselect] at hbound
      cases hbound
    | some selection =>
      rw [hselect] at hbound
      have hread := hcompiles.readAt_of_alternatives hinner hselect
        fun pattern hmem emit start parts bindings hemitted hbound =>
          ih pattern hmem (hinner pattern hmem) hemitted hbound
      cases hbound
      simpa [Selection.retarget, Pattern.bindings] using hread.retarget emit.environment

/-- A selection reads each name where the certificate lists it. -/
theorem CompilesTo.readAt
    (hdistinct : ∀ pattern ∈ alternatives, ∀ node ∈ pattern.nodes, node.StepsDistinct)
    (hcompiles : CompilesTo options alternatives expected path span pool certificate findings middle
      compiled later) (hselect : compiled.procedure.select root = some selection) :
    ReadAt root certificate.bindings selection.bindings := by
  rw [(Pattern.certify_sound hcompiles.certified).1]
  exact hcompiles.readAt_of_alternatives hdistinct hselect
    fun pattern hmem emit start parts bindings hemitted hbound =>
      hemitted.readAt (hdistinct pattern hmem) hbound

namespace Pattern

variable {pattern : Pattern} {scrutinee : Ty} {value : Value}

/-- Whichever alternative is selected, the bindings are those of the names of the
    environment, each once and in its order, to the components at the places that
    the certificate lists. The value need not be of the type that the pattern was
    compiled for, but no two parts of a node may share a step. -/
theorem compile_binds_certified_places (hdistinct : ∀ node ∈ pattern.nodes, node.StepsDistinct)
    (hcompile : (pattern.compile options scrutinee).runOn pool = (.ok compiled, later))
    (hselect : compiled.procedure.select value = some selection) :
    ∃ certificate, certify pattern.alternatives [] pattern.span = .ok certificate ∧
      compiled.environment.names.Nodup ∧
      selection.bindings.map BoundValue.name = compiled.environment.names ∧
      ∀ bound ∈ selection.bindings, ∃ path, certificate.path? bound.name = some path ∧
        value.at? path = some bound.value := by
  obtain ⟨-, certificate, findings, middle, hcompiles⟩ := compile_yields_iff.mp hcompile
  have hread := hcompiles.readAt
    (fun _ hmem => forall_nodes_of_alternative hdistinct hmem) hselect
  have hnodup := hcompiles.names_nodup
  have hnames : certificate.names = compiled.environment.names :=
    (names_of_certify hcompiles.certified).trans hcompiles.environment_names.symm
  refine ⟨certificate, hcompiles.certified, hnodup, ?_, fun bound hmem => ?_⟩
  · have hperm := hread.map Prod.fst
    rw [List.map_map, List.map_map] at hperm
    rw [← hcompiles.procedure_names] at hnodup hnames ⊢
    exact Procedure.names_of_select hselect hnodup (hnames ▸ hperm)
  · have hplace := hread.subset (List.mem_map_of_mem hmem)
    obtain ⟨⟨name, path⟩, hlisted, heq⟩ := List.mem_map.mp hplace
    obtain ⟨rfl, hvalue⟩ := Prod.mk.inj heq
    have hunique : (certificate.bindings.map Prod.fst).Nodup := by
      rw [← hnames] at hnodup
      exact hnodup
    exact ⟨path, (lookup_eq_some_iff_mem hunique).mpr hlisted, hvalue⟩

/-- Two records that bind the same two names, the first by a nested or-pattern and
    the second in the other order, tested on a record that has no value of the
    declared type in one of its fields. -/
theorem compile_binds_certified_places_of_records :
    let pool := (Pool.initial.record [(⟨1⟩, .i32), (⟨2⟩, .i64)]).2
    let inner := or [bind ⟨3⟩ none Span.none, bind ⟨3⟩ none Span.none] Span.none
    let alternatives := [
      record [⟨⟨1⟩, inner, Span.none⟩, ⟨⟨2⟩, bind ⟨4⟩ none Span.none, Span.none⟩] false Span.none,
      record [⟨⟨2⟩, bind ⟨4⟩ none Span.none, Span.none⟩, ⟨⟨1⟩, inner, Span.none⟩] false Span.none]
    let value := Value.record [(⟨2⟩, .bool true), (⟨1⟩, .int 5)]
    ∃ compiled later selection,
      ((or alternatives Span.none).compile {} ⟨11⟩).runOn pool = (.ok compiled, later) ∧
        compiled.procedure.select value = some selection ∧
        ∃ certificate, certify alternatives [] Span.none = .ok certificate ∧
          selection.bindings.map BoundValue.name = compiled.environment.names ∧
          ∀ bound ∈ selection.bindings, ∃ path, certificate.path? bound.name = some path ∧
            value.at? path = some bound.value := by
  intro pool inner alternatives value
  have hdistinct : ∀ node ∈ (or alternatives Span.none).nodes, node.StepsDistinct := by
    simp [alternatives, inner, nodes, nodesList, nodesFields, StepsDistinct]
  obtain ⟨compiled, later, selection, hcompile, hselect⟩ : ∃ compiled later selection,
      ((or alternatives Span.none).compile {} ⟨11⟩).runOn pool = (.ok compiled, later) ∧
        compiled.procedure.select value = some selection := ⟨_, _, _, rfl, rfl⟩
  obtain ⟨certificate, hcertify, -, hnames, hplaces⟩ :=
    compile_binds_certified_places hdistinct hcompile hselect
  exact ⟨compiled, later, selection, hcompile, hselect, certificate, hcertify, hnames, hplaces⟩

/-- Under a field that is mentioned twice only the later of two or-patterns is
    remembered: the name of the earlier one is not bound, that of the later one
    twice. -/
theorem repeated_field_binds_one_name_twice :
    let pool := (Pool.initial.record [(⟨1⟩, .i32)]).2
    let choice := fun name => or [bind name none Span.none, bind name none Span.none] Span.none
    let pattern := record [⟨⟨1⟩, choice ⟨2⟩, Span.none⟩, ⟨⟨1⟩, choice ⟨3⟩, Span.none⟩] false Span.none
    ∃ compiled later selection,
      (pattern.compile {} ⟨11⟩).runOn pool = (.ok compiled, later) ∧
        compiled.procedure.select (.record [(⟨1⟩, .int 5)]) = some selection ∧
        compiled.environment.names = [⟨2⟩, ⟨3⟩] ∧
        selection.bindings.map BoundValue.name = [⟨3⟩, ⟨3⟩] :=
  ⟨_, _, _, rfl, rfl, rfl, rfl⟩

end Pattern

end OrPattern
