import OrPattern.Proofs.Dispatch.Erase
import OrPattern.Procedure.Select

namespace OrPattern

theorem mergeAscending_cons_left {x : Nat} {xs ys : List Nat} (hlow : ∀ y ∈ ys, x ≤ y) :
    mergeAscending (x :: xs) ys = x :: mergeAscending xs ys := by
  cases ys with
  | nil => simp
  | cons y ys => rw [mergeAscending_cons_cons, if_pos (hlow y List.mem_cons_self)]

theorem mergeAscending_cons_right {y : Nat} {xs ys : List Nat} (hlow : ∀ x ∈ xs, y < x) :
    mergeAscending xs (y :: ys) = y :: mergeAscending xs ys := by
  cases xs with
  | nil => rfl
  | cons x xs =>
    rw [mergeAscending_cons_cons, if_neg (Nat.not_le_of_lt (hlow x List.mem_cons_self))]

namespace Arm

variable {path : Path} {arms : List Arm} {index number : Nat} {tag : Name}

theorem le_of_mem_taggedAt (hmem : (tag, number) ∈ taggedAt path index arms) :
    index ≤ number ∧ number < index + arms.length := by
  induction arms generalizing index with
  | nil => exact absurd hmem List.not_mem_nil
  | cons arm rest ih =>
    have hrest : (tag, number) ∈ taggedAt path (index + 1) rest →
        index ≤ number ∧ number < index + (arm :: rest).length := by
      intro h
      have := ih h
      simp only [List.length_cons]
      omega
    unfold taggedAt at hmem
    split at hmem
    · rcases List.mem_cons.mp hmem with heq | hmem
      · cases heq
        simp
      · exact hrest hmem
    · exact hrest hmem

theorem le_of_mem_untaggedAt (hmem : number ∈ untaggedAt path index arms) :
    index ≤ number ∧ number < index + arms.length := by
  induction arms generalizing index with
  | nil => exact absurd hmem List.not_mem_nil
  | cons arm rest ih =>
    have hrest : number ∈ untaggedAt path (index + 1) rest →
        index ≤ number ∧ number < index + (arm :: rest).length := by
      intro h
      have := ih h
      simp only [List.length_cons]
      omega
    unfold untaggedAt at hmem
    split at hmem
    · exact hrest hmem
    · rcases List.mem_cons.mp hmem with heq | hmem
      · cases heq
        simp
      · exact hrest hmem

end Arm

/-- A value with another tag at the place fails an arm that tests a tag there. -/
theorem Check.bindings?_eq_none {root : Value} {path : Path} {tag : Name} {checks : List Check}
    (htag : checks.findSome? (fun check => match check with
      | .tag place tag => if place = path then some tag else none
      | _ => none) = some tag)
    (hother : (root.at? path).bind Value.tag? ≠ some tag) :
    Check.bindings? root checks = none := by
  induction checks with
  | nil => cases htag
  | cons check rest ih =>
    rw [List.findSome?_cons] at htag
    cases check with
    | tag place found =>
      simp only [Check.bindings?]
      by_cases hplace : place = path
      · simp only [hplace, if_true, Option.some.injEq] at htag
        rw [hplace, htag, if_neg hother]
      · simp only [hplace, if_false] at htag
        rw [ih htag, ite_self]
    | literal place value =>
      simp only [Check.bindings?]
      rw [ih htag, ite_self]
    | firstOf place procedure =>
      simp only [Check.bindings?]
      rw [ih htag]
      cases procedure.select root <;> rfl

/-- The arms that a tag and the lack of a tag leave to try yield what all arms
    yield. -/
theorem findSome?_candidates {root : Value} {names : List Name} {path : Path} {tag : Name}
    (htag : (root.at? path).bind Value.tag? = some tag) (arms : List Arm) (index : Nat)
    (outcome : Nat → Option Selection)
    (houtcome : ∀ offset found, (Arm.outcomes root names arms)[offset]? = some found →
      outcome (index + offset) = found) :
    (mergeAscending (((Arm.taggedAt path index arms).filter fun arm => arm.1 = tag).map Prod.snd)
        (Arm.untaggedAt path index arms)).findSome? outcome =
      (Arm.outcomes root names arms).findSome? id := by
  induction arms generalizing index with
  | nil => rfl
  | cons arm rest ih =>
    obtain ⟨alternative, checks, slots⟩ := arm
    simp only [Arm.outcomes] at houtcome ⊢
    have hfirst := houtcome 0 _ rfl
    have hrest := ih (index + 1) fun offset found hfound => by
      rw [Nat.add_assoc, Nat.add_comm 1]
      exact houtcome (offset + 1) found hfound
    have htagged : ∀ number ∈ ((Arm.taggedAt path (index + 1) rest).filter
        fun arm => arm.1 = tag).map Prod.snd, index < number := by
      intro number hmem
      obtain ⟨⟨found, number⟩, hfound, rfl⟩ := List.mem_map.mp hmem
      exact (Arm.le_of_mem_taggedAt (List.mem_filter.mp hfound).1).1
    have huntagged : ∀ number ∈ Arm.untaggedAt path (index + 1) rest, index ≤ number :=
      fun number hmem => Nat.le_of_succ_le (Arm.le_of_mem_untaggedAt hmem).1
    rw [List.findSome?_cons, id, ← hfirst, Nat.add_zero]
    cases hat : Arm.tagAt? path ⟨alternative, checks, slots⟩ with
    | none =>
      simp only [Arm.taggedAt, Arm.untaggedAt, hat]
      rw [mergeAscending_cons_right htagged, List.findSome?_cons, hrest]
    | some found =>
      simp only [Arm.taggedAt, Arm.untaggedAt, hat]
      by_cases hsame : found = tag
      · simp only [List.filter_cons, hsame, decide_true, if_true, List.map_cons]
        rw [mergeAscending_cons_left huntagged, List.findSome?_cons, hrest]
      · have hnone : Check.bindings? root checks = none :=
          Check.bindings?_eq_none hat fun h => hsame (Option.some.inj (h.symm.trans htag))
        simp only [List.filter_cons, hsame, decide_false, Bool.false_eq_true, if_false]
        rw [hnone] at hfirst
        rw [hrest, ← Nat.add_zero index, hfirst]

/-- A dispatch over the arms of a procedure only saves trying arms that cannot
    accept the value. -/
theorem firstSelection_ofArms {root : Value} {names : List Name} {arms : List Arm} {path : Path}
    {dispatch : Dispatch} (hdispatch : Dispatch.ofArms? arms path = some dispatch) :
    firstSelection (Arm.outcomes root names arms) (dispatch.candidates? root) =
      firstSelection (Arm.outcomes root names arms) none := by
  have hparts : dispatch = ⟨path, Arm.taggedAt path 0 arms, Arm.untaggedAt path 0 arms⟩ := by
    unfold Dispatch.ofArms? at hdispatch
    split at hdispatch
    · cases hdispatch
    · exact (Option.some.inj hdispatch).symm
  subst hparts
  unfold Dispatch.candidates?
  cases htag : (root.at? path).bind Value.tag? with
  | none => rfl
  | some tag =>
    simp only [firstSelection]
    refine findSome?_candidates htag arms 0 _ fun offset found hfound => ?_
    rw [Nat.zero_add, hfound, Option.join_some]

end OrPattern
