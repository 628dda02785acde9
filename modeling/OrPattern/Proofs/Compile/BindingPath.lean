import OrPattern.Proofs.Compile.Emitted
import OrPattern.Proofs.Pattern.WellFormed

namespace OrPattern

variable {options : Options} {pool later : Pool} {expected : Ty} {path : Path} {pattern : Pattern}
  {emit : EmitContext} {parts others : ArmParts} {name : Name} {environment : Environment}

theorem Slot.path_retarget (slot : Slot) : (slot.retarget environment).path = slot.path := by
  unfold Slot.retarget
  split <;> rfl

theorem Slot.name_retarget (slot : Slot) : (slot.retarget environment).name = slot.name := by
  unfold Slot.retarget
  split <;> rfl

theorem Slot.find?_retarget (slots : List Slot) :
    (slots.map (Slot.retarget environment)).find? (fun slot => slot.name = name) =
      (slots.find? fun slot => slot.name = name).map (Slot.retarget environment) := by
  simp only [List.find?_map, Function.comp_def, Slot.name_retarget]

mutual

/-- Seen at other types, a procedure binds its names at the same paths. -/
theorem Procedure.bindingPath?_retarget : ∀ procedure : Procedure,
    (procedure.retarget environment).bindingPath? name = procedure.bindingPath? name
  | ⟨[], _, _⟩ => rfl
  | ⟨⟨_, checks, slots⟩ :: _, _, _⟩ => by
    simp only [Procedure.retarget, Arm.retargetAll, Procedure.bindingPath?, Slot.find?_retarget,
      Check.bindingPath?_retargetAll checks]
    cases slots.find? fun slot => slot.name = name with
    | none => rfl
    | some slot => simp only [Option.map_some, Slot.path_retarget]

theorem Check.bindingPath?_retargetAll : ∀ checks : List Check,
    Check.bindingPath? name (Check.retargetAll environment checks) = Check.bindingPath? name checks
  | [] => rfl
  | .firstOf _ procedure :: rest => by
    simp only [Check.retargetAll, Check.bindingPath?, Procedure.bindingPath?_retarget procedure,
      Check.bindingPath?_retargetAll rest]
  | .tag .. :: rest => by
    simp only [Check.retargetAll, Check.bindingPath?, Check.bindingPath?_retargetAll rest]
  | .literal .. :: rest => by
    simp only [Check.retargetAll, Check.bindingPath?, Check.bindingPath?_retargetAll rest]

end

theorem Check.bindingPath?_append (checks others : List Check) :
    Check.bindingPath? name (checks ++ others) =
      (Check.bindingPath? name checks).or (Check.bindingPath? name others) := by
  induction checks with
  | nil => rfl
  | cons check rest ih =>
    cases check with
    | tag | literal => simp only [List.cons_append, Check.bindingPath?, ih]
    | firstOf path procedure =>
      simp only [List.cons_append, Check.bindingPath?, ih]
      cases procedure.bindingPath? name <;> rfl

namespace ArmParts

/-- The path at which the parts of an arm bind a name. -/
def bindingPath? (name : Name) (parts : ArmParts) : Option Path :=
  match parts.slots.find? fun slot => slot.name = name with
  | some slot => some slot.path
  | none => Check.bindingPath? name parts.checks

theorem bindingPath?_eq_none_iff : parts.bindingPath? name = none ↔
    (parts.slots.find? fun slot => slot.name = name) = none ∧
      Check.bindingPath? name parts.checks = none := by
  unfold bindingPath?
  cases parts.slots.find? fun slot => slot.name = name <;> simp

theorem bindingPath?_append_left (hnone : others.bindingPath? name = none) :
    (parts ++ others).bindingPath? name = parts.bindingPath? name := by
  obtain ⟨hslots, hchecks⟩ := bindingPath?_eq_none_iff.mp hnone
  have hfind : ((parts ++ others).slots.find? fun slot => slot.name = name) =
      parts.slots.find? fun slot => slot.name = name := by
    refine List.find?_append.trans ?_
    rw [hslots, Option.or_none]
  have hrest : Check.bindingPath? name (parts ++ others).checks =
      Check.bindingPath? name parts.checks := by
    refine (Check.bindingPath?_append _ _).trans ?_
    rw [hchecks, Option.or_none]
  rw [bindingPath?, hfind, hrest, bindingPath?]

theorem bindingPath?_append_right (hnone : parts.bindingPath? name = none) :
    (parts ++ others).bindingPath? name = others.bindingPath? name := by
  obtain ⟨hslots, hchecks⟩ := bindingPath?_eq_none_iff.mp hnone
  have hfind : ((parts ++ others).slots.find? fun slot => slot.name = name) =
      others.slots.find? fun slot => slot.name = name := by
    refine List.find?_append.trans ?_
    rw [hslots, Option.none_or]
  have hrest : Check.bindingPath? name (parts ++ others).checks =
      Check.bindingPath? name others.checks := by
    refine (Check.bindingPath?_append _ _).trans ?_
    rw [hchecks, Option.none_or]
  rw [bindingPath?, hfind, hrest, bindingPath?]

end ArmParts

/-- Parts of a node that bind different names bind them where the pattern says, if
    each part does. -/
theorem bindingPath?_of_gathers {steps : List (Step × Pattern)}
    (hgathers : Gathers (fun step part => part.armParts emit (path ++ [step.clip])) {} steps parts)
    (hnodup : ((Pattern.bindingsParts steps).map Prod.fst).Nodup)
    (hsteps : ∀ part ∈ steps, ∀ piece, part.2.armParts emit (path ++ [part.1.clip]) = .ok piece →
      piece.bindingPath? name = (under (path ++ [part.1.clip]) part.2.bindings).lookup name) :
    parts.bindingPath? name = (under path (Pattern.bindingsParts steps)).lookup name := by
  induction hgathers with
  | nil => rfl
  | @cons step pattern steps first others head _ ih =>
    have hsplit : Pattern.bindingsParts ((step, pattern) :: steps) =
        under [step.clip] pattern.bindings ++ Pattern.bindingsParts steps := rfl
    rw [hsplit, List.map_append, List.nodup_append] at hnodup
    obtain ⟨-, hrestNodup, hapart⟩ := hnodup
    have hfirst := hsteps (step, pattern) List.mem_cons_self first head
    have hothers := ih hrestNodup fun part hmem => hsteps part (List.mem_cons_of_mem _ hmem)
    rw [hsplit, under_append, under_under, List.lookup_append, ← hfirst, ← hothers]
    cases hfound : first.bindingPath? name with
    | none => exact ArmParts.bindingPath?_append_right hfound
    | some place =>
      have hmem : name ∈ (under [step.clip] pattern.bindings).map Prod.fst := by
        rw [names_under, ← names_under (path ++ [step.clip]), ← lookup_isSome_iff_mem, ← hfirst,
          hfound]
        rfl
      have hnone : others.bindingPath? name = none := by
        rw [hothers, ← Option.not_isSome_iff_eq_none, lookup_isSome_iff_mem, names_under]
        exact fun hrest => hapart name hmem name hrest rfl
      rw [ArmParts.bindingPath?_append_left hnone, hfound, Option.some_or]

/-- A procedure binds its names where its first alternative does. -/
theorem CompilesTo.bindingPath?_of_alternatives {alternatives : List Pattern} {span : Span}
    {certificate : Certificate} {findings : Findings} {middle : Pool} {compiled : Compiled}
    (hdistinct : ∀ pattern ∈ alternatives, ∀ node ∈ pattern.nodes, node.StepsDistinct)
    (hcompiles : CompilesTo options alternatives expected path span pool certificate findings middle
      compiled later)
    (hpatterns : ∀ pattern ∈ alternatives, ∀ emit start parts,
      Emitted options emit expected path start pattern parts →
        parts.bindingPath? name = (under path pattern.bindings).lookup name) :
    compiled.procedure.bindingPath? name =
      (under path (Pattern.bindingsFirst alternatives)).lookup name := by
  obtain ⟨arms, harms, hprocedure⟩ := Except.bind_eq_ok_iff.mp hcompiles.emitted
  rw [← Except.pure_eq_ok_iff.mp hprocedure]
  cases alternatives with
  | nil =>
    cases harms
    rfl
  | cons first rest =>
    obtain ⟨parts, hparts, hrest⟩ := Except.bind_eq_ok_iff.mp harms
    obtain ⟨others, -, hresult⟩ := Except.bind_eq_ok_iff.mp hrest
    cases hresult
    have hfirst : (first :: rest)[0]? = some first := rfl
    obtain ⟨start, hemitted⟩ := hcompiles.exists_emitted hdistinct hfirst hparts
    exact hpatterns first List.mem_cons_self _ start parts hemitted

/-- An arm binds each name at the path that its pattern gives it. -/
theorem Emitted.bindingPath?_eq (hdistinct : ∀ node ∈ pattern.nodes, node.StepsDistinct)
    (hagree : ∀ node ∈ pattern.nodes, node.ChoicesAgree) (hnodup : pattern.names.Nodup)
    (hemitted : Emitted options emit expected path pool pattern parts) :
    parts.bindingPath? name = (under path pattern.bindings).lookup name := by
  induction pattern using Pattern.inductParts generalizing emit expected path pool parts with
  | wildcard | literal =>
    cases hemitted.emitted
    rfl
  | bind bound ascription span =>
    obtain ⟨exposed, -, rfl⟩ := hemitted.slot
    simp only [ArmParts.bindingPath?, Pattern.bindings, under, List.map_cons, List.map_nil,
      List.append_nil]
    by_cases hsame : bound = name
    · simp [hsame]
    · have hother : (name == bound) = false := by simpa using fun h : name = bound => hsame h.symm
      simp [hsame, hother, List.lookup_cons, Check.bindingPath?]
  | branch pattern hbranch ih =>
    obtain ⟨inner, rfl, hinner, hparts⟩ := hemitted.exists_parts hbranch
    have hown : (pattern.ownParts path).bindingPath? name = none := by
      cases pattern <;> rfl
    rw [ArmParts.bindingPath?_append_right hown, Pattern.bindings_branch hbranch]
    have hpartsNodup := hnodup
    rw [Pattern.names, Pattern.bindings_branch hbranch] at hpartsNodup
    refine bindingPath?_of_gathers hinner hpartsNodup fun part hmem piece hpiece => ?_
    obtain ⟨type, start, hpart⟩ := hparts part hmem piece hpiece
    exact ih part hmem (Pattern.forall_nodes_of_part hdistinct hmem)
      (Pattern.forall_nodes_of_part hagree hmem) (Pattern.names_nodup_of_part hbranch hnodup hmem)
      hpart
  | or alternatives span ih =>
    obtain ⟨certificate, findings, middle, compiled, later, hcompiles, rfl⟩ := hemitted.choices
    have hinner : ∀ pattern ∈ alternatives, ∀ node ∈ pattern.nodes, node.StepsDistinct :=
      Pattern.stepsDistinct_or_iff.mp hdistinct
    have hchoices : Pattern.Agree alternatives := hagree _ (Pattern.self_mem_nodes _)
    have hprocedure : compiled.procedure.bindingPath? name =
        (under path (Pattern.bindingsFirst alternatives)).lookup name :=
      hcompiles.bindingPath?_of_alternatives hinner fun pattern hmem emit start parts hemitted =>
        ih pattern hmem (hinner pattern hmem) (Pattern.forall_nodes_of_choice hagree hmem)
          (hchoices.unique pattern hmem) hemitted
    simp only [ArmParts.bindingPath?, List.find?_nil, Check.bindingPath?,
      Procedure.bindingPath?_retarget, hprocedure]
    rw [Pattern.bindings]
    cases (under path (Pattern.bindingsFirst alternatives)).lookup name <;> rfl

/-- A procedure binds each name where the certificate says. -/
theorem CompilesTo.bindingPath?_eq {alternatives : List Pattern} {span : Span}
    {certificate : Certificate} {findings : Findings} {middle : Pool} {compiled : Compiled}
    (hdistinct : ∀ pattern ∈ alternatives, ∀ node ∈ pattern.nodes, node.StepsDistinct)
    (hagree : Pattern.Agree alternatives)
    (hnodes : ∀ pattern ∈ alternatives, ∀ node ∈ pattern.nodes, node.ChoicesAgree)
    (hcompiles : CompilesTo options alternatives expected path span pool certificate findings middle
      compiled later) (name : Name) :
    compiled.procedure.bindingPath? name =
      (under path (Pattern.bindingsFirst alternatives)).lookup name :=
  hcompiles.bindingPath?_of_alternatives hdistinct fun pattern hmem _ _ _ hemitted =>
    hemitted.bindingPath?_eq (hdistinct pattern hmem) (hnodes pattern hmem) (hagree.unique pattern hmem)

end OrPattern
