import Mathlib.Data.List.Perm.Basic
import OrPattern.Proofs.Name.Ascending

namespace OrPattern

/-! Other names put items into another order: what the order by name loses then, and
what it keeps. -/

variable {α β : Type} {key : α → Name} {items others : List α} {name : Name}

namespace AscendingByName

/-- Among ascending items an item is the one that a search for its name finds. -/
theorem find?_eq_some_iff (hitems : AscendingByName key items) {item : α} :
    items.find? (fun other => key other = key item) = some item ↔ item ∈ items := by
  refine ⟨List.mem_of_find?_eq_some, fun hmem => ?_⟩
  cases hfound : items.find? fun other => key other = key item with
  | none => exact absurd rfl (of_decide_eq_false (Bool.eq_false_iff.mpr
      (List.find?_eq_none.mp hfound item hmem)))
  | some found =>
    have hkey : decide (key found = key item) = true :=
      List.find?_some (p := fun other => decide (key other = key item)) hfound
    rw [hitems.eq_of_key_eq (List.mem_of_find?_eq_some hfound) hmem (of_decide_eq_true hkey)]

/-- Ascending items are told apart by what searches for names find. -/
theorem eq_of_find?_eq (hitems : AscendingByName key items) (hothers : AscendingByName key others)
    (hfind : ∀ name, items.find? (fun item => key item = name) =
      others.find? (fun item => key item = name)) : items = others :=
  hitems.eq_of_mem_iff hothers fun item => by
    rw [← hitems.find?_eq_some_iff, hfind, hothers.find?_eq_some_iff]

end AscendingByName

theorem find?_insertByName (hitems : AscendingByName key items) (item : α) (name : Name) :
    (insertByName key item items).find? (fun other => key other = name) =
      (items.find? fun other => key other = name).or
        ([item].find? fun other => key other = name) := by
  induction items with
  | nil => simp [insertByName]
  | cons first rest ih =>
    obtain ⟨hfirst, hrest⟩ := List.pairwise_cons.mp hitems
    unfold insertByName
    split
    · next hlt =>
      by_cases hname : key item = name
      · -- An item that comes before all others is the only one with its name.
        subst hname
        have habsent : (first :: rest).find? (fun other => key other = key item) = none := by
          refine List.find?_eq_none.mpr fun other hmem => ?_
          rw [decide_eq_true_eq]
          intro heq
          rw [← heq] at hlt
          rcases List.mem_cons.mp hmem with rfl | hmem
          · exact Nat.lt_irrefl _ hlt
          · exact Nat.lt_asymm hlt (hfirst other hmem)
        rw [habsent]
        simp
      · simp [List.find?_cons, hname]
    · split
      · next hsame =>
        by_cases hname : key first = name
        · simp [hname]
        · simp [hsame, hname]
      · rw [List.find?_cons, List.find?_cons, ih hrest]
        split <;> simp

/-- Sorting keeps, of the items with one name, the first. -/
theorem find?_sortByName (key : α → Name) (items : List α) (name : Name) :
    (sortByName key items).find? (fun item => key item = name) =
      items.find? (fun item => key item = name) := by
  suffices h : ∀ sorted, AscendingByName key sorted →
      (items.foldl (fun sorted item => insertByName key item sorted) sorted).find?
          (fun item => key item = name) =
        (sorted.find? fun item => key item = name).or
          (items.find? fun item => key item = name) from
    (h [] List.Pairwise.nil).trans (by simp)
  induction items with
  | nil => simp
  | cons item rest ih =>
    intro sorted hsorted
    rw [List.foldl_cons, ih _ (hsorted.insertByName item), find?_insertByName hsorted,
      Option.or_assoc, ← List.find?_append, List.singleton_append]

theorem insertByName_perm {item : α} (hfresh : ∀ other ∈ items, key item ≠ key other) :
    (insertByName key item items).Perm (item :: items) := by
  induction items with
  | nil => exact .refl _
  | cons first rest ih =>
    obtain ⟨hfirst, hrest⟩ := List.forall_mem_cons.mp hfresh
    unfold insertByName
    split
    · exact .refl _
    · exact ((ih hrest).cons first).trans (.swap item first rest)

/-- Where no name occurs twice, sorting drops nothing. -/
theorem sortByName_perm (hnodup : (items.map key).Nodup) : (sortByName key items).Perm items := by
  suffices h : ∀ sorted, ((sorted ++ items).map key).Nodup →
      (items.foldl (fun sorted item => insertByName key item sorted) sorted).Perm
        (sorted ++ items) from h [] hnodup
  clear hnodup
  induction items with
  | nil => simp
  | cons item rest ih =>
    intro sorted hnodup
    have hmoved : (sorted ++ item :: rest).Perm (item :: sorted ++ rest) := List.perm_middle
    have hnodup := (hmoved.map key).nodup_iff.mp hnodup
    have hinsert : (insertByName key item sorted).Perm (item :: sorted) := by
      refine insertByName_perm fun other hmem heq => ?_
      rw [List.cons_append, List.map_cons, List.nodup_cons] at hnodup
      refine hnodup.1 (heq ▸ List.mem_map.mpr ⟨other, ?_, rfl⟩)
      exact List.mem_append_left rest hmem
    rw [List.foldl_cons]
    refine (ih _ (((hinsert.append_right rest).map key).nodup_iff.mpr hnodup)).trans ?_
    exact (hinsert.append_right rest).trans hmoved.symm

/-- Items that are only listed in another order are sorted alike. -/
theorem sortByName_congr (hperm : items.Perm others) (hnodup : (items.map key).Nodup) :
    sortByName key items = sortByName key others := by
  refine (ascendingByName_sortByName key items).eq_of_mem_iff
    (ascendingByName_sortByName key others) fun item => ?_
  rw [(sortByName_perm hnodup).mem_iff, hperm.mem_iff,
    (sortByName_perm ((hperm.map key).nodup_iff.mp hnodup)).mem_iff]

section Change

variable {names : Name → Name} (hnames : Function.Injective names) {key' : β → Name}
  (change : α → β) (hkey : ∀ item, key' (change item) = names (key item))
include hnames hkey

theorem nodup_map_change (hnodup : (items.map key).Nodup) :
    ((items.map change).map key').Nodup := by
  have hkeys : (items.map change).map key' = (items.map key).map names := by
    rw [List.map_map, List.map_map]
    exact List.map_congr_left fun item _ => hkey item
  rw [hkeys]
  exact hnodup.map hnames

/-- It makes no difference whether items are put into order before they get other
    names as well. -/
theorem sortByName_map_sortByName (items : List α) :
    sortByName key' ((sortByName key items).map change) = sortByName key' (items.map change) := by
  refine (ascendingByName_sortByName _ _).eq_of_find?_eq (ascendingByName_sortByName _ _)
    fun name => ?_
  rw [find?_sortByName, find?_sortByName, List.find?_map, List.find?_map]
  refine congrArg _ ?_
  by_cases hname : ∃ old, names old = name
  · obtain ⟨old, rfl⟩ := hname
    have hsearch : ((fun item => decide (key' item = names old)) ∘ change) =
        fun item => decide (key item = old) := by
      funext item
      simp only [Function.comp_apply, hkey, hnames.eq_iff]
    rw [hsearch, find?_sortByName]
  · have hsearch : ((fun item => decide (key' item = name)) ∘ change) = fun _ => false := by
      funext item
      exact decide_eq_false fun heq => hname ⟨key item, (hkey item).symm.trans heq⟩
    rw [hsearch, List.find?_eq_none.mpr fun _ _ => Bool.false_ne_true,
      List.find?_eq_none.mpr fun _ _ => Bool.false_ne_true]

theorem sortByName_map_perm (hitems : AscendingByName key items) :
    (sortByName key' (items.map change)).Perm (items.map change) :=
  sortByName_perm (nodup_map_change hnames change hkey hitems.nodup)

/-- Ascending items are still told apart once they have other names. -/
theorem sortByName_map_eq_iff (hchange : Function.Injective change)
    (hitems : AscendingByName key items) (hothers : AscendingByName key others) :
    sortByName key' (items.map change) = sortByName key' (others.map change) ↔ items = others := by
  refine ⟨fun heq => ?_, fun heq => by rw [heq]⟩
  have hperm : (items.map change).Perm (others.map change) :=
    (sortByName_map_perm hnames change hkey hitems).symm.trans
      (heq ▸ sortByName_map_perm hnames change hkey hothers)
  exact hitems.eq_of_mem_iff hothers fun item =>
    ((List.map_perm_map_iff hchange).mp hperm).mem_iff

end Change

end OrPattern
