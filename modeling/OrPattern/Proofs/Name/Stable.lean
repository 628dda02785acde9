import Mathlib.Data.List.Destutter
import OrPattern.Proofs.Name.Lookup
import OrPattern.Proofs.Naming.Sorted

namespace OrPattern

/-! To put items at their place one by one, dropping those whose name is there already,
comes to a stable sort after which neighbours with one name are thinned to the first. -/

variable {α : Type} {key : α → Name} {items : List α}

/-- A stable sort leaves the items with one name in the order they had. -/
theorem filter_mergeSort_key (key : α → Name) (items : List α) (name : Name) :
    (items.mergeSort fun a b => (key a).number ≤ (key b).number).filter
        (fun item => key item = name) =
      items.filter fun item => key item = name := by
  -- Items with one name are in order as they stand, so the sort must not move them.
  have hnamed : (items.filter fun item => key item = name).Pairwise fun a b =>
      decide ((key a).number ≤ (key b).number) = true := by
    refine List.pairwise_of_forall_mem_list fun a ha b hb => ?_
    have ha : key a = name := of_decide_eq_true (List.mem_filter.mp ha).2
    have hb : key b = name := of_decide_eq_true (List.mem_filter.mp hb).2
    rw [ha, hb, decide_eq_true_eq]
  have hsublist := List.sublist_mergeSort (by simp; omega) (by simp; omega) hnamed
    List.filter_sublist
  have hfilter := hsublist.filter fun item => key item = name
  rw [List.filter_filter] at hfilter
  simp only [Bool.and_self] at hfilter
  exact (hfilter.eq_of_length ((List.mergeSort_perm items _).filter _).length_eq.symm).symm

theorem find?_mergeSort_key (key : α → Name) (items : List α) (name : Name) :
    (items.mergeSort fun a b => (key a).number ≤ (key b).number).find?
        (fun item => key item = name) =
      items.find? fun item => key item = name := by
  rw [← List.head?_filter, filter_mergeSort_key, List.head?_filter]

/-- Of neighbours with one name the first stays, so nothing else is found under a name. -/
theorem find?_destutter_key (key : α → Name) (items : List α) (name : Name) :
    (items.destutter fun a b => key a ≠ key b).find? (fun item => key item = name) =
      items.find? fun item => key item = name := by
  cases items with
  | nil => rfl
  | cons first rest =>
    rw [List.destutter_cons']
    induction rest generalizing first with
    | nil => rfl
    | cons second rest ih =>
      by_cases hkey : key first = key second
      · rw [List.destutter'_cons_neg _ (not_not_intro hkey), ih]
        by_cases hname : key second = name <;> simp [hkey, hname]
      · rw [List.destutter'_cons_pos _ hkey, List.find?_cons, ih]
        rfl

/-- Once sorted, items that differ from their neighbours in name ascend. -/
theorem ascendingByName_destutter
    (hitems : items.Pairwise fun a b => (key a).number ≤ (key b).number) :
    AscendingByName key (items.destutter fun a b => key a ≠ key b) := by
  cases items with
  | nil => exact List.Pairwise.nil
  | cons first rest =>
    rw [List.destutter_cons']
    induction rest generalizing first with
    | nil => exact List.pairwise_singleton _ _
    | cons second rest ih =>
      obtain ⟨hfirst, hrest⟩ := List.pairwise_cons.mp hitems
      by_cases hkey : key first = key second
      · rw [List.destutter'_cons_neg _ (not_not_intro hkey)]
        exact ih first (hitems.sublist ((List.sublist_cons_self second rest).cons_cons first))
      · rw [List.destutter'_cons_pos _ hkey]
        refine List.pairwise_cons.mpr ⟨fun other hother => ?_, ih second hrest⟩
        have hle := hfirst second List.mem_cons_self
        have hne : (key first).number ≠ (key second).number := fun h => hkey (congrArg Name.mk h)
        rcases List.mem_cons.mp ((List.destutter'_sublist _ _ _).subset hother) with rfl | hmem
        · omega
        · have := (List.pairwise_cons.mp hrest).1 other hmem
          omega

theorem sortByName_eq_destutter_mergeSort (key : α → Name) (items : List α) :
    sortByName key items =
      (items.mergeSort fun a b => (key a).number ≤ (key b).number).destutter
        fun a b => key a ≠ key b := by
  have hsorted : (items.mergeSort fun a b => (key a).number ≤ (key b).number).Pairwise
      fun a b => decide ((key a).number ≤ (key b).number) = true :=
    List.pairwise_mergeSort (by simp; omega) (by simp; omega) items
  refine (ascendingByName_sortByName key items).eq_of_find?_eq
    (ascendingByName_destutter (hsorted.imp of_decide_eq_true)) fun name => ?_
  rw [find?_sortByName, find?_destutter_key, find?_mergeSort_key]

section Entries

variable {β : Type}

theorem lookup_eq_find? (entries : List (Name × β)) (name : Name) :
    entries.lookup name = (entries.find? fun entry => entry.1 = name).map Prod.snd := by
  induction entries with
  | nil => rfl
  | cons entry rest ih =>
    obtain ⟨key, value⟩ := entry
    by_cases hkey : name = key
    · simp [hkey]
    · rw [List.lookup_cons, beq_eq_false_iff_ne.mpr hkey, List.find?_cons_of_neg (by simp [Ne.symm hkey])]
      exact ih

/-- Under a name, sorted entries hold what the first entry with that name held. -/
theorem lookup_sortByName (entries : List (Name × β)) (name : Name) :
    (sortByName Prod.fst entries).lookup name = entries.lookup name := by
  rw [lookup_eq_find?, find?_sortByName, lookup_eq_find?]

/-- Entries are sorted alike if and only if the first entries of every name are. -/
theorem sortByName_eq_iff {entries others : List (Name × β)} :
    sortByName Prod.fst entries = sortByName Prod.fst others ↔
      ∀ name, entries.lookup name = others.lookup name := by
  refine ⟨fun hsorted name => ?_, fun hlookup => ?_⟩
  · rw [← lookup_sortByName, hsorted, lookup_sortByName]
  · have hascending := ascendingByName_sortByName (Prod.fst (α := Name) (β := β))
    refine (hascending entries).eq_of_mem_iff (hascending others) fun entry => ?_
    rw [← lookup_eq_some_iff_mem (hascending entries).nodup,
      ← lookup_eq_some_iff_mem (hascending others).nodup, lookup_sortByName, lookup_sortByName,
      hlookup]

end Entries

end OrPattern
