import OrPattern.Proofs.Compile.Collects
import OrPattern.Proofs.Dispatch.Candidates
import OrPattern.Proofs.Pattern.Gather

namespace OrPattern

/-- A procedure and those nested in its arms, at any depth. -/
inductive Procedure.Encloses : Procedure → Procedure → Prop where
  | self (procedure : Procedure) : Encloses procedure procedure
  | nested {outer inner procedure : Procedure} {arm : Arm} {path : Path} (arms : arm ∈ outer.arms)
      (checks : Check.firstOf path inner ∈ arm.checks) (rest : Encloses inner procedure) :
      Encloses outer procedure

/-- Every dispatch, at any depth, is the one over the arms it stands beside. -/
def Procedure.Faithful (procedure : Procedure) : Prop :=
  ∀ inner, procedure.Encloses inner → ∀ dispatch ∈ inner.dispatch,
    Dispatch.ofArms? inner.arms dispatch.path = some dispatch

def Check.AllFaithful (checks : List Check) : Prop :=
  ∀ path procedure, Check.firstOf path procedure ∈ checks → procedure.Faithful

theorem Procedure.faithful_iff {procedure : Procedure} :
    procedure.Faithful ↔
      (∀ dispatch ∈ procedure.dispatch,
        Dispatch.ofArms? procedure.arms dispatch.path = some dispatch) ∧
      ∀ arm ∈ procedure.arms, Check.AllFaithful arm.checks := by
  constructor
  · intro hfaithful
    refine ⟨hfaithful procedure (.self procedure), fun arm harm path inner hcheck => ?_⟩
    exact fun deep hdeep => hfaithful deep (.nested harm hcheck hdeep)
  · rintro ⟨hown, harms⟩ inner hinner
    cases hinner with
    | self => exact hown
    | nested harm hcheck hrest => exact harms _ harm _ _ hcheck inner hrest

mutual

theorem Procedure.select_eraseDispatch (root : Value) :
    ∀ procedure : Procedure, procedure.Faithful →
      procedure.eraseDispatch.select root = procedure.select root
  | ⟨arms, dispatch, names⟩, hfaithful => by
    obtain ⟨hown, harms⟩ := Procedure.faithful_iff.mp hfaithful
    simp only [Procedure.eraseDispatch, Procedure.select, Option.bind_none,
      Arm.outcomes_eraseDispatchAll root names arms harms]
    cases dispatch with
    | none => rfl
    | some dispatch => exact (firstSelection_ofArms (hown dispatch rfl)).symm

theorem Arm.outcomes_eraseDispatchAll (root : Value) (names : List Name) :
    ∀ arms : List Arm, (∀ arm ∈ arms, Check.AllFaithful arm.checks) →
      Arm.outcomes root names (Arm.eraseDispatchAll arms) = Arm.outcomes root names arms
  | [], _ => rfl
  | ⟨alternative, checks, slots⟩ :: rest, harms => by
    have hchecks := harms ⟨alternative, checks, slots⟩ List.mem_cons_self
    have hrest : ∀ arm ∈ rest, Check.AllFaithful arm.checks := fun arm harm =>
      harms arm (List.mem_cons_of_mem _ harm)
    simp only [Arm.eraseDispatchAll, Arm.outcomes, Check.bindings?_eraseDispatchAll root checks hchecks,
      Arm.outcomes_eraseDispatchAll root names rest hrest]

theorem Check.bindings?_eraseDispatchAll (root : Value) :
    ∀ checks : List Check, Check.AllFaithful checks →
      Check.bindings? root (Check.eraseDispatchAll checks) = Check.bindings? root checks
  | [], _ => rfl
  | .firstOf path procedure :: rest, hchecks => by
    have hprocedure := hchecks path procedure List.mem_cons_self
    have hrest : Check.AllFaithful rest := fun path inner hmem =>
      hchecks path inner (List.mem_cons_of_mem _ hmem)
    simp only [Check.eraseDispatchAll, Check.bindings?,
      Procedure.select_eraseDispatch root procedure hprocedure,
      Check.bindings?_eraseDispatchAll root rest hrest]
  | .tag path tag :: rest, hchecks => by
    have hrest : Check.AllFaithful rest := fun path inner hmem =>
      hchecks path inner (List.mem_cons_of_mem _ hmem)
    simp only [Check.eraseDispatchAll, Check.bindings?,
      Check.bindings?_eraseDispatchAll root rest hrest]
  | .literal path value :: rest, hchecks => by
    have hrest : Check.AllFaithful rest := fun path inner hmem =>
      hchecks path inner (List.mem_cons_of_mem _ hmem)
    simp only [Check.eraseDispatchAll, Check.bindings?,
      Check.bindings?_eraseDispatchAll root rest hrest]

end

namespace Procedure

variable {procedure : Procedure}

/-- A dispatch that is faithful changes no selection. -/
theorem Faithful.select_eq (hfaithful : procedure.Faithful) (root : Value) :
    procedure.select root = procedure.eraseDispatch.selectLinear root := by
  have hnone : procedure.eraseDispatch.dispatch = none := by
    cases procedure
    rfl
  rw [← select_of_dispatch_eq_none root hnone, procedure.select_eraseDispatch root hfaithful]

theorem Faithful.selectLinear_eq (hfaithful : procedure.Faithful) (root : Value) :
    procedure.selectLinear root = procedure.eraseDispatch.selectLinear root := by
  obtain ⟨-, harms⟩ := faithful_iff.mp hfaithful
  obtain ⟨arms, dispatch, names⟩ := procedure
  simp only [selectLinear, eraseDispatch, Arm.outcomes_eraseDispatchAll root names arms harms]

/-- A faithful dispatch points at arms that are there. -/
theorem Faithful.index_lt (hfaithful : procedure.Faithful) {inner : Procedure}
    (hinner : procedure.Encloses inner) {dispatch : Dispatch} (hdispatch : dispatch ∈ inner.dispatch)
    {index : Nat}
    (hindex : index ∈ dispatch.untagged ∨ ∃ tag, (tag, index) ∈ dispatch.tagged) :
    index < inner.arms.length := by
  have hparts := hfaithful inner hinner dispatch hdispatch
  unfold Dispatch.ofArms? at hparts
  split at hparts
  · cases hparts
  · rw [← Option.some.inj hparts] at hindex
    rcases hindex with huntagged | ⟨tag, htagged⟩
    · have := (Arm.le_of_mem_untaggedAt huntagged).2
      omega
    · have := (Arm.le_of_mem_taggedAt htagged).2
      omega

end Procedure

section Retarget

variable (environment : Environment)

theorem Arm.tagAt?_retarget (path : Path) (alternative : Nat) (checks : List Check)
    (slots : List Slot) :
    Arm.tagAt? path ⟨alternative, Check.retargetAll environment checks,
        slots.map (Slot.retarget environment)⟩ =
      Arm.tagAt? path ⟨alternative, checks, slots⟩ := by
  simp only [Arm.tagAt?]
  induction checks with
  | nil => rfl
  | cons check rest ih =>
    cases check <;> simp only [Check.retargetAll, List.findSome?_cons, ih]

theorem Arm.taggedAt_retargetAll (path : Path) (arms : List Arm) (index : Nat) :
    Arm.taggedAt path index (Arm.retargetAll environment arms) = Arm.taggedAt path index arms := by
  induction arms generalizing index with
  | nil => rfl
  | cons arm rest ih =>
    obtain ⟨alternative, checks, slots⟩ := arm
    simp only [Arm.retargetAll, Arm.taggedAt, Arm.tagAt?_retarget, ih]

theorem Arm.untaggedAt_retargetAll (path : Path) (arms : List Arm) (index : Nat) :
    Arm.untaggedAt path index (Arm.retargetAll environment arms) =
      Arm.untaggedAt path index arms := by
  induction arms generalizing index with
  | nil => rfl
  | cons arm rest ih =>
    obtain ⟨alternative, checks, slots⟩ := arm
    simp only [Arm.retargetAll, Arm.untaggedAt, Arm.tagAt?_retarget, ih]

theorem Arm.exists_of_mem_retargetAll {arm : Arm} {arms : List Arm}
    (hmem : arm ∈ Arm.retargetAll environment arms) :
    ∃ original ∈ arms, arm.alternative = original.alternative ∧
      arm.checks = Check.retargetAll environment original.checks ∧
      arm.slots = original.slots.map (Slot.retarget environment) := by
  induction arms with
  | nil => exact absurd hmem List.not_mem_nil
  | cons first rest ih =>
    obtain ⟨alternative, checks, slots⟩ := first
    rcases List.mem_cons.mp hmem with rfl | hrest
    · exact ⟨_, List.mem_cons_self, rfl, rfl, rfl⟩
    · obtain ⟨original, horiginal, hseen⟩ := ih hrest
      exact ⟨original, List.mem_cons_of_mem _ horiginal, hseen⟩

theorem Check.exists_of_mem_retargetAll {path : Path} {procedure : Procedure} {checks : List Check}
    (hmem : Check.firstOf path procedure ∈ Check.retargetAll environment checks) :
    ∃ original, Check.firstOf path original ∈ checks ∧
      procedure = original.retarget environment := by
  induction checks with
  | nil => exact absurd hmem List.not_mem_nil
  | cons check rest ih =>
    have hlater : Check.firstOf path procedure ∈ Check.retargetAll environment rest →
        ∃ original, Check.firstOf path original ∈ check :: rest ∧
          procedure = original.retarget environment := by
      intro h
      obtain ⟨original, horiginal, heq⟩ := ih h
      exact ⟨original, List.mem_cons_of_mem _ horiginal, heq⟩
    cases check with
    | firstOf place inner =>
      rcases List.mem_cons.mp hmem with heq | hrest
      · cases heq
        exact ⟨inner, List.mem_cons_self, rfl⟩
      · exact hlater hrest
    | tag | literal => exact hlater ((List.mem_cons.mp hmem).resolve_left nofun)

/-- What is nested in a procedure is retargeted with it. -/
theorem Procedure.Encloses.of_retarget {procedure inner : Procedure}
    (hinner : (procedure.retarget environment).Encloses inner) :
    ∃ original, procedure.Encloses original ∧ inner = original.retarget environment := by
  generalize houter : procedure.retarget environment = outer at hinner
  induction hinner generalizing procedure with
  | self => exact ⟨procedure, .self procedure, houter.symm⟩
  | nested harm hcheck _ ih =>
    subst houter
    obtain ⟨arms, dispatch, names⟩ := procedure
    obtain ⟨arm, harm, -, hchecks, -⟩ := Arm.exists_of_mem_retargetAll environment harm
    rw [hchecks] at hcheck
    obtain ⟨middle, hmiddle, rfl⟩ := Check.exists_of_mem_retargetAll environment hcheck
    obtain ⟨original, horiginal, rfl⟩ := ih rfl
    exact ⟨original, .nested harm hmiddle horiginal, rfl⟩

theorem Procedure.Faithful.retarget {procedure : Procedure} (hfaithful : procedure.Faithful) :
    (procedure.retarget environment).Faithful := by
  intro inner hinner dispatch hdispatch
  obtain ⟨original, horiginal, rfl⟩ := hinner.of_retarget environment
  have hown := hfaithful original horiginal
  obtain ⟨arms, own, names⟩ := original
  simp only [Procedure.retarget] at hdispatch ⊢
  simp only [Dispatch.ofArms?, Arm.taggedAt_retargetAll, Arm.untaggedAt_retargetAll]
  exact hown dispatch hdispatch

end Retarget

end OrPattern
