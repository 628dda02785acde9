import OrPattern.Proofs.Pattern.Captures
import OrPattern.Proofs.Pattern.Gather
import OrPattern.Proofs.Select.Retarget

namespace OrPattern

variable {root : Value}

/-- The names and values of bindings, without their types. -/
def BoundValue.pairs (bindings : List BoundValue) : List (Name × Value) :=
  bindings.map fun bound => (bound.name, bound.value)

namespace BoundValue

@[simp] theorem pairs_append (bindings others : List BoundValue) :
    pairs (bindings ++ others) = pairs bindings ++ pairs others :=
  List.map_append

@[simp] theorem pairs_retarget (environment : Environment) (bindings : List BoundValue) :
    pairs (bindings.map (retarget environment)) = pairs bindings := by
  simp [pairs]

theorem arrange_perm (names : List Name) (bindings : List BoundValue) :
    (arrange names bindings).Perm bindings := by
  induction names generalizing bindings with
  | nil => exact .refl bindings
  | cons name names ih =>
    have hsplit := List.filter_append_perm (fun bound : BoundValue => decide (bound.name = name)) bindings
    refine ((ih _).append_left _).trans ?_
    simpa using hsplit

end BoundValue

/-- What was found is what is captured, up to order. -/
def Binds (found : Option (List BoundValue)) (captured : Option (List (Name × Value))) : Prop :=
  Option.Rel List.Perm (found.map BoundValue.pairs) captured

namespace Binds

variable {found others : Option (List BoundValue)} {captured rest : Option (List (Name × Value))}

theorem refused : Binds none none := Option.Rel.none

theorem accepted {bindings : List BoundValue} {values : List (Name × Value)}
    (hperm : (BoundValue.pairs bindings).Perm values) : Binds (some bindings) (some values) :=
  Option.Rel.some hperm

theorem of_some {values : List (Name × Value)} (hbinds : Binds found (some values)) :
    ∃ bindings, found = some bindings ∧ (BoundValue.pairs bindings).Perm values := by
  cases found with
  | none => cases hbinds
  | some bindings =>
    cases hbinds with
    | some hperm => exact ⟨bindings, rfl, hperm⟩

theorem of_none (hbinds : Binds found none) : found = none := by
  cases found with
  | none => rfl
  | some bindings => cases hbinds

theorem both (hfirst : Binds found captured) (hothers : Binds others rest) :
    Binds (bothCaptures found others) (bothCaptures captured rest) := by
  cases captured with
  | none =>
    rw [hfirst.of_none]
    exact .refused
  | some values =>
    obtain ⟨bindings, rfl, hperm⟩ := hfirst.of_some
    cases rest with
    | none =>
      rw [hothers.of_none]
      exact .refused
    | some restValues =>
      obtain ⟨restBindings, rfl, hrestPerm⟩ := hothers.of_some
      refine .accepted ?_
      rw [BoundValue.pairs_append]
      exact hperm.append hrestPerm

theorem of_perm {bindings original : List BoundValue} (hbinds : Binds (some original) captured)
    (hperm : bindings.Perm original) : Binds (some bindings) captured := by
  cases hbinds with
  | some hpairs => exact .accepted ((hperm.map _).trans hpairs)

end Binds

theorem Check.bindings?_append (checks others : List Check) :
    Check.bindings? root (checks ++ others) =
      bothCaptures (Check.bindings? root checks) (Check.bindings? root others) := by
  induction checks with
  | nil =>
    simp only [List.nil_append, Check.bindings?, bothCaptures, Option.bind_some]
    cases Check.bindings? root others <;> rfl
  | cons check rest ih =>
    cases check with
    | tag | literal =>
      simp only [List.cons_append, Check.bindings?, ih]
      split <;> rfl
    | firstOf path procedure =>
      simp only [List.cons_append, Check.bindings?, ih, bothCaptures]
      cases procedure.select root with
      | none => rfl
      | some selection =>
        cases Check.bindings? root rest with
        | none => rfl
        | some nested => cases Check.bindings? root others <;> simp

theorem Slot.readAll_append (slots others : List Slot) :
    (slots ++ others).mapM (Slot.read root) =
      bothCaptures (slots.mapM (Slot.read root)) (others.mapM (Slot.read root)) := by
  rw [List.mapM_append]
  cases slots.mapM (Slot.read root) <;> cases others.mapM (Slot.read root) <;> rfl

/-- What the parts of an arm bind, if every check passes and every slot is
    there. -/
def ArmParts.bindings? (root : Value) (parts : ArmParts) : Option (List BoundValue) :=
  bothCaptures (Check.bindings? root parts.checks) (parts.slots.mapM (Slot.read root))

namespace ArmParts

theorem binds_empty : Binds (({} : ArmParts).bindings? root) (some []) :=
  .accepted (.refl _)

/-- Parts put together bind what each of them binds. -/
theorem bindings?_append_perm (parts others : ArmParts) :
    Option.Rel List.Perm ((parts ++ others).bindings? root)
      (bothCaptures (parts.bindings? root) (others.bindings? root)) := by
  have happend : (parts ++ others).bindings? root = bothCaptures
      (bothCaptures (Check.bindings? root parts.checks) (Check.bindings? root others.checks))
      (bothCaptures (parts.slots.mapM (Slot.read root)) (others.slots.mapM (Slot.read root))) := by
    rw [← Check.bindings?_append, ← Slot.readAll_append]
    rfl
  rw [happend, bindings?, bindings?]
  cases Check.bindings? root parts.checks with
  | none => exact .none
  | some checks =>
    cases Check.bindings? root others.checks with
    | none =>
      cases parts.slots.mapM (Slot.read root) <;> exact .none
    | some otherChecks =>
      cases parts.slots.mapM (Slot.read root) with
      | none => exact .none
      | some slots =>
        cases others.slots.mapM (Slot.read root) with
        | none => exact .none
        | some otherSlots =>
          refine .some ?_
          simp only [List.append_assoc]
          refine .append_left checks ?_
          rw [← List.append_assoc, ← List.append_assoc]
          exact List.perm_append_comm.append_right otherSlots

/-- Once a part refuses, the rest does not matter. -/
theorem bindings?_append_of_none {parts : ArmParts} (hnone : parts.bindings? root = none)
    (others : ArmParts) : (parts ++ others).bindings? root = none := by
  have hperm : Option.Rel List.Perm ((parts ++ others).bindings? root) (bothCaptures none _) :=
    hnone ▸ bindings?_append_perm parts others
  generalize (parts ++ others).bindings? root = bound at hperm ⊢
  cases hperm
  rfl

theorem binds_append {parts others : ArmParts} {captured rest : Option (List (Name × Value))}
    (hparts : Binds (parts.bindings? root) captured) (hothers : Binds (others.bindings? root) rest) :
    Binds ((parts ++ others).bindings? root) (bothCaptures captured rest) := by
  have hboth := hparts.both hothers
  have hperm : Option.Rel List.Perm ((parts ++ others).bindings? root)
      (bothCaptures (parts.bindings? root) (others.bindings? root)) :=
    bindings?_append_perm parts others
  generalize (parts ++ others).bindings? root = bound at hperm ⊢
  generalize bothCaptures (parts.bindings? root) (others.bindings? root) = both at hperm hboth
  cases hperm with
  | none => exact hboth
  | some hperm => exact hboth.of_perm hperm

/-- The test of a variant passes when the tag is the one of the value. -/
theorem binds_ownParts {pattern : Pattern} {path : Path} {value : Value}
    (hbranch : pattern.isBranch) (hat : root.at? path = some value)
    (hvariant : ∀ tag inner span, pattern = .variant tag inner span → value.tag?.isSome) :
    Binds ((pattern.ownParts path).bindings? root)
      (if pattern.ownTest value then some [] else none) := by
  cases pattern with
  | variant tag inner span =>
    have htag := hvariant tag inner span rfl
    cases value with
    | variant found payload =>
      simp only [Pattern.ownParts, bindings?, Check.bindings?, hat, Option.bind_some, Value.tag?,
        Option.some.injEq, Pattern.ownTest, decide_eq_true_eq, eq_comm (a := found)]
      split
      · exact .accepted (.refl _)
      · exact .refused
    | _ => cases htag
  | tuple | record => exact binds_empty
  | wildcard | bind | literal | or => cases hbranch

end ArmParts

end OrPattern
