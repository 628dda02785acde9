import OrPattern.Procedure.Emit
import OrPattern.Proofs.Pattern.Gather

namespace OrPattern

/-- One environment has a type for every name that the other has one for. -/
def Environment.Covers (outer inner : Environment) : Prop :=
  ∀ name, (inner.type? name).isSome → (outer.type? name).isSome

theorem Environment.covers_refl (environment : Environment) : environment.Covers environment :=
  fun _ h => h

variable {outer inner environment : Environment}

/-- Seen at the types of an environment and then at those of one that covers it, a
    slot is seen at the latter. -/
theorem Slot.retarget_retarget (hcovers : outer.Covers inner) (slot : Slot) :
    (slot.retarget inner).retarget outer = slot.retarget outer := by
  cases hinner : inner.type? slot.name with
  | none => simp only [Slot.retarget, hinner]
  | some type =>
    obtain ⟨exposed, houter⟩ := Option.isSome_iff_exists.mp (hcovers slot.name (by rw [hinner]; rfl))
    simp only [Slot.retarget, hinner, houter]

mutual

theorem Procedure.retarget_retarget (hcovers : outer.Covers inner) : ∀ procedure : Procedure,
    (procedure.retarget inner).retarget outer = procedure.retarget outer
  | ⟨arms, dispatch, names⟩ => by simp only [Procedure.retarget, Arm.retargetAll_retargetAll hcovers arms]

theorem Arm.retargetAll_retargetAll (hcovers : outer.Covers inner) : ∀ arms : List Arm,
    Arm.retargetAll outer (Arm.retargetAll inner arms) = Arm.retargetAll outer arms
  | [] => rfl
  | ⟨alternative, checks, slots⟩ :: rest => by
    simp only [Arm.retargetAll, Check.retargetAll_retargetAll hcovers checks, List.map_map,
      Function.comp_def, Slot.retarget_retarget hcovers, Arm.retargetAll_retargetAll hcovers rest]

theorem Check.retargetAll_retargetAll (hcovers : outer.Covers inner) : ∀ checks : List Check,
    Check.retargetAll outer (Check.retargetAll inner checks) = Check.retargetAll outer checks
  | [] => rfl
  | .firstOf path procedure :: rest => by
    simp only [Check.retargetAll, Procedure.retarget_retarget hcovers procedure,
      Check.retargetAll_retargetAll hcovers rest]
  | .tag path tag :: rest => by
    simp only [Check.retargetAll, Check.retargetAll_retargetAll hcovers rest]
  | .literal path value :: rest => by
    simp only [Check.retargetAll, Check.retargetAll_retargetAll hcovers rest]

end

theorem Check.retargetAll_append (checks others : List Check) :
    Check.retargetAll environment (checks ++ others) =
      Check.retargetAll environment checks ++ Check.retargetAll environment others := by
  induction checks with
  | nil => rfl
  | cons check rest ih => cases check <;> simp only [List.cons_append, Check.retargetAll, ih]

/-- The parts of an arm, seen at the types of an environment. -/
def ArmParts.retarget (environment : Environment) (parts : ArmParts) : ArmParts :=
  ⟨Check.retargetAll environment parts.checks, parts.slots.map (Slot.retarget environment)⟩

theorem ArmParts.retarget_append (parts others : ArmParts) :
    (parts ++ others).retarget environment =
      parts.retarget environment ++ others.retarget environment := by
  have hsplit : parts ++ others = ⟨parts.checks ++ others.checks, parts.slots ++ others.slots⟩ := rfl
  rw [hsplit, retarget, Check.retargetAll_append, List.map_append]
  rfl

theorem ArmParts.retarget_ownParts (pattern : Pattern) (path : Path) :
    (pattern.ownParts path).retarget environment = pattern.ownParts path := by
  cases pattern <;> rfl

/-- An arm is emitted at the types of its environment. -/
theorem Pattern.retarget_of_armParts {emit : EmitContext} (pattern : Pattern) (path : Path)
    (parts : ArmParts) (hparts : pattern.armParts emit path = .ok parts) :
    parts.retarget emit.environment = parts := by
  induction pattern using inductParts generalizing path parts with
  | wildcard span | literal value span =>
    cases hparts
    rfl
  | bind name ascription span =>
    obtain ⟨slot, hslot, hresult⟩ := Except.bind_eq_ok_iff.mp hparts
    cases hresult
    obtain ⟨site, exposed, -, hexposed, rfl⟩ := EmitContext.slot_eq_ok_iff.mp hslot
    simp only [ArmParts.retarget, Check.retargetAll, List.map_cons, List.map_nil, Slot.retarget,
      hexposed]
  | branch pattern hbranch ih =>
    obtain ⟨inner, hinner, rfl⟩ := (armParts_branch_eq_ok_iff hbranch).mp hparts
    have hfixed : inner.retarget emit.environment = inner := by
      refine hinner.fold (P := fun parts => parts.retarget emit.environment = parts) rfl
        (fun a b ha hb => ?_) fun part hmem found hfound => ih part hmem _ found hfound
      rw [ArmParts.retarget_append, ha, hb]
    rw [ArmParts.retarget_append, ArmParts.retarget_ownParts, hfixed]
  | or alternatives span _ =>
    obtain ⟨check, hcheck, hresult⟩ := Except.bind_eq_ok_iff.mp hparts
    cases hresult
    obtain ⟨compiled, -, rfl⟩ := EmitContext.nestedCheck_eq_ok_iff.mp hcheck
    simp only [ArmParts.retarget, Check.retargetAll, List.map_nil,
      Procedure.retarget_retarget (Environment.covers_refl emit.environment)]

end OrPattern
