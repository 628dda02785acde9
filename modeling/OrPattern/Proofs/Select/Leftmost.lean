import OrPattern.Proofs.Compile.Emitted
import OrPattern.Proofs.Dispatch.Meaning
import OrPattern.Proofs.Select.Binds

namespace OrPattern

open Attempt

variable {options : Options} {pool later : Pool} {expected : Ty} {root value : Value}

/-- The leftmost alternative that accepts a value, by number, with what it
    binds. -/
def Pattern.leftmost (value : Value) : List Pattern → Option (Nat × List (Name × Value))
  | [] => none
  | alternative :: rest =>
    match alternative.captures value with
    | some captured => some (0, captured)
    | none => (leftmost value rest).map fun found => (found.1 + 1, found.2)

theorem Pattern.leftmost_map_snd (value : Value) (alternatives : List Pattern) :
    (leftmost value alternatives).map Prod.snd = capturesFirst alternatives value := by
  induction alternatives with
  | nil => rfl
  | cons alternative rest ih =>
    simp only [leftmost, capturesFirst, ← ih]
    cases alternative.captures value with
    | some captured => rfl
    | none => simp [Function.comp_def]

/-- A selection is the given choice, up to the order of what is bound. -/
def Selection.Agrees (index : Nat) (selection : Selection) (choice : Nat × List (Name × Value)) :
    Prop :=
  selection.alternative = index + choice.1 ∧ (BoundValue.pairs selection.bindings).Perm choice.2

theorem Selection.agrees_shift {index : Nat} {selection : Option Selection}
    {choice : Option (Nat × List (Name × Value))}
    (hagrees : Option.Rel (Agrees (index + 1)) selection choice) :
    Option.Rel (Agrees index) selection (choice.map fun found => (found.1 + 1, found.2)) := by
  cases hagrees with
  | none => exact .none
  | some hagrees =>
    refine .some ⟨?_, hagrees.2⟩
    rw [hagrees.1, Nat.add_assoc, Nat.add_comm 1]

theorem Arm.outcomes_cons (names : List Name) (alternative : Nat) (parts : ArmParts)
    (rest : List Arm) :
    Arm.outcomes root names (⟨alternative, parts.checks, parts.slots⟩ :: rest) =
      ((parts.bindings? root).map fun bindings =>
        ⟨alternative, BoundValue.arrange names bindings⟩) :: Arm.outcomes root names rest := by
  simp only [Arm.outcomes, ArmParts.bindings?]
  cases Check.bindings? root parts.checks <;> cases parts.slots.mapM (Slot.read root) <;> rfl

/-- Arms that bind what their alternatives capture choose the leftmost
    alternative. -/
theorem emitArms_agrees {evidence : Evidence} {environment : Environment} {base : Path}
    {names : List Name} {alternatives : List Pattern} {index : Nat} {arms : List Arm}
    (harms : evidence.emitArms environment base alternatives index = .ok arms)
    (hbinds : ∀ (offset : Nat) pattern parts, alternatives[offset]? = some pattern →
      pattern.armParts ⟨evidence, environment, index + offset⟩ base = .ok parts →
        Binds (parts.bindings? root) (pattern.captures value)) :
    Option.Rel (Selection.Agrees index) (firstSelection (Arm.outcomes root names arms) none)
      (Pattern.leftmost value alternatives) := by
  induction alternatives generalizing index arms with
  | nil =>
    cases harms
    exact .none
  | cons pattern rest ih =>
    obtain ⟨parts, hparts, hrest⟩ := Except.bind_eq_ok_iff.mp harms
    obtain ⟨others, hothers, hresult⟩ := Except.bind_eq_ok_iff.mp hrest
    cases hresult
    have hfirst := hbinds 0 pattern parts rfl hparts
    have htail := ih hothers fun offset other found hother hfound => by
      rw [Nat.add_assoc, Nat.add_comm 1] at hfound
      exact hbinds (offset + 1) other found hother hfound
    simp only [firstSelection, Pattern.leftmost, Arm.outcomes_cons, List.findSome?_cons, id]
    cases hcaptures : pattern.captures value with
    | some captured =>
      rw [hcaptures] at hfirst
      obtain ⟨bindings, hbound, hperm⟩ := hfirst.of_some
      rw [hbound]
      exact .some ⟨rfl, ((BoundValue.arrange_perm names bindings).map _).trans hperm⟩
    | none =>
      rw [hcaptures] at hfirst
      rw [hfirst.of_none]
      exact Selection.agrees_shift htail

/-- The parts of a node bind what they capture, if each part does. -/
theorem parts_bind {emit : EmitContext} {path : Path} {parts : List (Step × Pattern)}
    {found : ArmParts}
    (hgathers : Gathers (fun step part => part.armParts emit (path ++ [step.clip])) {} parts found)
    (hparts : ∀ part ∈ parts, ∀ piece, part.2.armParts emit (path ++ [part.1.clip]) = .ok piece →
      Binds (piece.bindings? root) ((value.project part.1).bind part.2.captures)) :
    Binds (found.bindings? root) (Pattern.capturesParts value parts) := by
  induction hgathers with
  | nil => exact ArmParts.binds_empty
  | cons head _ ih =>
    refine ArmParts.binds_append (hparts _ List.mem_cons_self _ head) (ih fun part hmem => ?_)
    exact hparts part (List.mem_cons_of_mem _ hmem)

/-- A node binds what it captures, if its parts do wherever its own test passes. -/
theorem branch_binds {emit : EmitContext} {path : Path} {pattern : Pattern} {inner : ArmParts}
    (hbranch : pattern.isBranch) (hat : root.at? path = some value) (hfits : pattern.Fits pool expected)
    (hshaped : value.Shaped pool expected)
    (hgathers : Gathers (fun step part => part.armParts emit (path ++ [step.clip])) {}
      pattern.parts inner)
    (hparts : pattern.ownTest value → ∀ part ∈ pattern.parts, ∀ piece,
      part.2.armParts emit (path ++ [part.1.clip]) = .ok piece →
        Binds (piece.bindings? root) ((value.project part.1).bind part.2.captures)) :
    Binds ((pattern.ownParts path ++ inner).bindings? root) (pattern.captures value) := by
  have hown : Binds ((pattern.ownParts path).bindings? root)
      (if pattern.ownTest value then some [] else none) := by
    refine ArmParts.binds_ownParts hbranch hat fun tag part span heq => ?_
    subst heq
    exact hshaped.tag?_isSome hfits
  rw [Pattern.captures_branch hbranch hfits hshaped]
  by_cases htest : pattern.ownTest value
  · rw [if_pos htest] at hown ⊢
    have hboth := ArmParts.binds_append hown (parts_bind hgathers (hparts htest))
    rwa [bothCaptures_nil_left] at hboth
  · rw [if_neg htest] at hown ⊢
    rw [ArmParts.bindings?_append_of_none hown.of_none]
    exact .refused

/-- A compiled procedure chooses the leftmost alternative, if every arm binds what
    its alternative captures. -/
theorem CompilesTo.agrees_of_alternatives {alternatives : List Pattern} {path : Path} {span : Span}
    {certificate : Certificate} {findings : Findings} {middle : Pool} {compiled : Compiled}
    (hpool : pool.WellFormed) (hexpected : pool.contains expected)
    (hdistinct : ∀ pattern ∈ alternatives, ∀ node ∈ pattern.nodes, node.StepsDistinct)
    (hcompiles : CompilesTo options alternatives expected path span pool certificate findings middle
      compiled later)
    (hbinds : ∀ pattern ∈ alternatives, ∀ emit start parts, start.WellFormed → pool.KeptBy start →
      Emitted options emit expected path start pattern parts →
        Binds (parts.bindings? root) (pattern.captures value)) :
    Option.Rel (Selection.Agrees 0) (compiled.procedure.select root)
      (Pattern.leftmost value alternatives) := by
  obtain ⟨arms, harms, hprocedure⟩ := Except.bind_eq_ok_iff.mp hcompiles.emitted
  have hlinear : compiled.procedure.select root = compiled.procedure.selectLinear root :=
    (hcompiles.faithful.select_eq root).trans (hcompiles.faithful.selectLinear_eq root).symm
  rw [hlinear, ← Except.pure_eq_ok_iff.mp hprocedure]
  refine emitArms_agrees harms fun offset pattern parts hpattern hparts => ?_
  rw [Nat.zero_add] at hparts
  obtain ⟨start, hstart, hkept, hemitted⟩ :=
    hcompiles.emitted_arm hpool hexpected hdistinct hpattern hparts
  exact hbinds pattern (List.mem_of_getElem? hpattern) _ start parts hstart hkept hemitted

/-- The checks and slots of an alternative bind what its pattern captures in the
    component that it is laid over. -/
theorem Emitted.binds {emit : EmitContext} {path : Path} {pattern : Pattern} {parts : ArmParts}
    (hdistinct : ∀ node ∈ pattern.nodes, node.StepsDistinct) (hpool : pool.WellFormed)
    (hexpected : pool.contains expected)
    (hemitted : Emitted options emit expected path pool pattern parts)
    (hat : root.at? path = some value) (hshaped : value.Shaped pool expected) :
    Binds (parts.bindings? root) (pattern.captures value) := by
  induction pattern using Pattern.inductParts generalizing emit expected path pool parts value with
  | wildcard span =>
    cases hemitted.emitted
    exact ArmParts.binds_empty
  | bind name ascription span =>
    obtain ⟨exposed, -, rfl⟩ := hemitted.slot
    simp only [ArmParts.bindings?, Check.bindings?, List.mapM_cons, List.mapM_nil, Slot.read, hat]
    exact .accepted (.refl _)
  | literal literal span =>
    cases hemitted.emitted
    simp only [ArmParts.bindings?, Check.bindings?, hat, Option.any_some, Pattern.captures]
    cases value.matchesLiteral literal with
    | true => exact .accepted (.refl _)
    | false => exact .refused
  | branch pattern hbranch ih =>
    obtain ⟨hfits, inner, rfl, hinner, hparts⟩ := hemitted.branch hbranch hpool
    refine branch_binds hbranch hat hfits hshaped hinner fun htest part hmem piece hpiece => ?_
    obtain ⟨type, start, htype, hstart, hkept, hpart⟩ := hparts part hmem piece hpiece
    obtain ⟨component, hproject, hcomponent⟩ := Pattern.shaped_part hshaped htest htype
    have htypeKnown := Pattern.partType?_known hpool htype
    rw [hproject, Option.bind_some]
    refine ih part hmem (Pattern.forall_nodes_of_part hdistinct hmem)
      hstart (hkept.contains htypeKnown) hpart ?_ (hcomponent.mono hpool hkept htypeKnown)
    rw [Pattern.clip_eq_of_mem_parts (hdistinct pattern pattern.self_mem_nodes) hmem,
      Value.at?_append, hat, Option.bind_some, Value.at?, hproject]
    rfl
  | or alternatives span ih =>
    obtain ⟨certificate, findings, middle, compiled, later, hcompiles, rfl⟩ := hemitted.choices
    have hinner : ∀ pattern ∈ alternatives, ∀ node ∈ pattern.nodes, node.StepsDistinct :=
      Pattern.stepsDistinct_or_iff.mp hdistinct
    have hagrees : Option.Rel (Selection.Agrees 0) (compiled.procedure.select root)
        (Pattern.leftmost value alternatives) := by
      refine hcompiles.agrees_of_alternatives hpool hexpected hinner ?_
      intro pattern hmem emit start parts hstart hkept hemitted
      exact ih pattern hmem (hinner pattern hmem) hstart (hkept.contains hexpected) hemitted hat
        (hshaped.mono hpool hkept hexpected)
    simp only [ArmParts.bindings?, Check.bindings?, Procedure.select_retarget, Pattern.captures,
      ← Pattern.leftmost_map_snd]
    generalize compiled.procedure.select root = selection at hagrees ⊢
    generalize Pattern.leftmost value alternatives = choice at hagrees ⊢
    cases hagrees with
    | none => exact .refused
    | some hchoice =>
      apply Binds.accepted
      simpa [Selection.retarget] using hchoice.2

/-- A compiled procedure chooses the leftmost alternative that accepts a value of
    the type it was compiled for. -/
theorem CompilesTo.agrees {alternatives : List Pattern} {span : Span} {certificate : Certificate}
    {findings : Findings} {middle : Pool} {compiled : Compiled} (hpool : pool.WellFormed)
    (hexpected : pool.contains expected)
    (hdistinct : ∀ pattern ∈ alternatives, ∀ node ∈ pattern.nodes, node.StepsDistinct)
    (hcompiles : CompilesTo options alternatives expected [] span pool certificate findings middle
      compiled later) (hshaped : value.Shaped pool expected) :
    Option.Rel (Selection.Agrees 0) (compiled.procedure.select value)
      (Pattern.leftmost value alternatives) := by
  refine hcompiles.agrees_of_alternatives hpool hexpected hdistinct ?_
  intro pattern hmem emit start parts hstart hkept hemitted
  exact hemitted.binds (hdistinct pattern hmem) hstart (hkept.contains hexpected) rfl
    (hshaped.mono hpool hkept hexpected)

end OrPattern
