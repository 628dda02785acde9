import Mathlib.Logic.Function.Basic
import OrPattern.Procedure.Select

namespace OrPattern

variable (environment : Environment) (root : Value)

/-- A bound value, seen at the type that an environment gives its name. -/
def BoundValue.retarget (bound : BoundValue) : BoundValue :=
  match environment.type? bound.name with
  | some exposed => { bound with exposed, conversion := .between bound.native exposed }
  | none => bound

def Selection.retarget (selection : Selection) : Selection :=
  { selection with bindings := selection.bindings.map (BoundValue.retarget environment) }

@[simp] theorem BoundValue.name_retarget (bound : BoundValue) :
    (bound.retarget environment).name = bound.name := by
  unfold BoundValue.retarget
  split <;> rfl

@[simp] theorem BoundValue.value_retarget (bound : BoundValue) :
    (bound.retarget environment).value = bound.value := by
  unfold BoundValue.retarget
  split <;> rfl

/-- The order of bindings is a matter of which names are equal alone. -/
theorem BoundValue.arrange_map {change : BoundValue → BoundValue} {rename : Name → Name}
    (hrename : Function.Injective rename) (hname : ∀ bound, (change bound).name = rename bound.name)
    (names : List Name) (bindings : List BoundValue) :
    arrange (names.map rename) (bindings.map change) = (arrange names bindings).map change := by
  induction names generalizing bindings with
  | nil => rfl
  | cons name names ih =>
    simp only [List.map_cons, arrange, List.filter_map, List.map_append, ← ih]
    simp only [Function.comp_def, hname, hrename.eq_iff, ne_eq]

theorem BoundValue.arrange_retarget (names : List Name) (bindings : List BoundValue) :
    arrange names (bindings.map (retarget environment)) =
      (arrange names bindings).map (retarget environment) := by
  have harranged := arrange_map Function.injective_id (name_retarget environment) names bindings
  rwa [List.map_id] at harranged

theorem Slot.read_retarget (slot : Slot) :
    (slot.retarget environment).read root = (slot.read root).map (BoundValue.retarget environment) := by
  unfold Slot.retarget Slot.read
  split
  · next exposed hexposed => cases root.at? slot.path <;> simp [BoundValue.retarget, hexposed]
  · next hnone => cases root.at? slot.path <;> simp [BoundValue.retarget, hnone]

/-- Slots are read in the same way if each of them is. -/
theorem Slot.readAll_map {change : Slot → Slot} {changeBound : BoundValue → BoundValue}
    {other : Value} (hread : ∀ slot, (change slot).read other = (slot.read root).map changeBound)
    (slots : List Slot) :
    (slots.map change).mapM (Slot.read other) =
      (slots.mapM (Slot.read root)).map (List.map changeBound) := by
  induction slots with
  | nil => rfl
  | cons slot rest ih =>
    simp only [List.map_cons, List.mapM_cons, hread, ih]
    cases slot.read root <;> cases rest.mapM (Slot.read root) <;> rfl

theorem Slot.readAll_retarget (slots : List Slot) :
    (slots.map (Slot.retarget environment)).mapM (Slot.read root) =
      (slots.mapM (Slot.read root)).map (List.map (BoundValue.retarget environment)) :=
  readAll_map root (read_retarget environment root) slots

theorem firstSelection_map (change : Selection → Selection) (outcomes : List (Option Selection))
    (candidates : Option (List Nat)) :
    firstSelection (outcomes.map (Option.map change)) candidates =
      (firstSelection outcomes candidates).map change := by
  have hfirst : ∀ {α : Type} (items : List α) (outcome : α → Option Selection),
      items.findSome? (fun item => (outcome item).map change) =
        (items.findSome? outcome).map change := by
    intro α items outcome
    induction items with
    | nil => rfl
    | cons item rest ih =>
      rw [List.findSome?_cons, List.findSome?_cons, ih]
      cases outcome item <;> rfl
  cases candidates with
  | none =>
    simp only [firstSelection, List.findSome?_map]
    exact hfirst outcomes id
  | some candidates =>
    simp only [firstSelection, ← hfirst]
    refine congrArg (fun outcome => candidates.findSome? outcome) (funext fun index => ?_)
    rw [List.getElem?_map]
    cases outcomes[index]? <;> rfl

mutual

/-- A procedure seen at other types chooses the same and binds the same values,
    at those types. -/
theorem Procedure.select_retarget : ∀ procedure : Procedure,
    (procedure.retarget environment).select root =
      (procedure.select root).map (Selection.retarget environment)
  | ⟨arms, dispatch, names⟩ => by
    simp only [Procedure.retarget, Procedure.select, Arm.outcomes_retargetAll names arms,
      firstSelection_map]

theorem Arm.outcomes_retargetAll (names : List Name) : ∀ arms : List Arm,
    Arm.outcomes root names (Arm.retargetAll environment arms) =
      (Arm.outcomes root names arms).map (Option.map (Selection.retarget environment))
  | [] => rfl
  | ⟨alternative, checks, slots⟩ :: rest => by
    simp only [Arm.retargetAll, Arm.outcomes, List.map_cons, Check.bindings?_retargetAll checks,
      Slot.readAll_retarget, Arm.outcomes_retargetAll names rest]
    cases Check.bindings? root checks with
    | none => rfl
    | some nested =>
      cases slots.mapM (Slot.read root) with
      | none => rfl
      | some own =>
        simp only [Option.map_some, ← List.map_append, BoundValue.arrange_retarget,
          Selection.retarget]

theorem Check.bindings?_retargetAll : ∀ checks : List Check,
    Check.bindings? root (Check.retargetAll environment checks) =
      (Check.bindings? root checks).map (List.map (BoundValue.retarget environment))
  | [] => rfl
  | .tag path tag :: rest => by
    simp only [Check.retargetAll, Check.bindings?, Check.bindings?_retargetAll rest]
    split <;> rfl
  | .literal path value :: rest => by
    simp only [Check.retargetAll, Check.bindings?, Check.bindings?_retargetAll rest]
    split <;> rfl
  | .firstOf path procedure :: rest => by
    simp only [Check.retargetAll, Check.bindings?, Procedure.select_retarget procedure,
      Check.bindings?_retargetAll rest]
    cases procedure.select root with
    | none => rfl
    | some selection =>
      cases Check.bindings? root rest with
      | none => rfl
      | some others => simp only [Option.map_some, Selection.retarget, List.map_append]

end

end OrPattern
