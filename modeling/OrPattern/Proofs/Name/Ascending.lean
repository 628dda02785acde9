import Mathlib.Data.List.Nodup
import OrPattern.Name

namespace OrPattern

namespace AscendingByName

variable {α : Type} {key : α → Name} {items others : List α}

theorem nodup (hitems : AscendingByName key items) : (items.map key).Nodup := by
  refine List.pairwise_map.mpr (hitems.imp fun hlt heq => ?_)
  rw [heq] at hlt
  exact Nat.lt_irrefl _ hlt

/-- Whether items ascend is a matter of their names alone. -/
theorem of_sublist {β : Type} {key' : β → Name} {parts : List β}
    (hitems : AscendingByName key items) (hparts : (parts.map key').Sublist (items.map key)) :
    AscendingByName key' parts := by
  have hnames : (items.map key).Pairwise fun a b => a.number < b.number :=
    List.pairwise_map.mpr hitems
  exact (List.pairwise_map (f := key')).mp (hnames.sublist hparts)

/-- Among ascending items a name determines the item. -/
theorem eq_of_key_eq (hitems : AscendingByName key items) {a b : α} (ha : a ∈ items)
    (hb : b ∈ items) (hkey : key a = key b) : a = b :=
  List.inj_on_of_nodup_map hitems.nodup ha hb hkey

theorem eq_of_mem_iff (hitems : AscendingByName key items) (hothers : AscendingByName key others)
    (hmem : ∀ item, item ∈ items ↔ item ∈ others) : items = others := by
  have hperm : items.Perm others := (List.perm_ext_iff_of_nodup (hitems.nodup.of_map key)
    (hothers.nodup.of_map key)).mpr hmem
  refine hperm.eq_of_pairwise (fun a b _ _ hab hba => ?_) hitems hothers
  exact absurd hab (Nat.lt_asymm hba)

end AscendingByName

theorem insertByName_of_last {α : Type} {key : α → Name} {item : α} {items : List α}
    (hlast : ∀ other ∈ items, (key other).number < (key item).number) :
    insertByName key item items = items ++ [item] := by
  induction items with
  | nil => rfl
  | cons first rest ih =>
    have hlt := hlast first List.mem_cons_self
    have hne : key item ≠ key first := fun heq => by simp [heq] at hlt
    rw [insertByName, if_neg (Nat.lt_asymm hlt), if_neg hne,
      ih fun other hother => hlast other (List.mem_cons_of_mem _ hother), List.cons_append]

theorem mem_of_mem_sortByName {α : Type} {key : α → Name} {item : α} {items : List α}
    (hmem : item ∈ sortByName key items) : item ∈ items := by
  suffices h : ∀ sorted, item ∈ items.foldl (fun sorted item => insertByName key item sorted) sorted →
      item ∈ sorted ∨ item ∈ items from (h [] hmem).resolve_left List.not_mem_nil
  clear hmem
  induction items with
  | nil => exact fun sorted hsorted => .inl hsorted
  | cons first rest ih =>
    intro sorted hsorted
    rcases ih _ hsorted with hinserted | hrest
    · rcases eq_or_mem_of_mem_insertByName hinserted with rfl | hold
      · exact .inr List.mem_cons_self
      · exact .inl hold
    · exact .inr (List.mem_cons_of_mem first hrest)

theorem mem_insertByName_iff {name other : Name} {names : List Name} :
    other ∈ insertByName id name names ↔ other = name ∨ other ∈ names := by
  refine ⟨eq_or_mem_of_mem_insertByName, fun hmem => ?_⟩
  induction names with
  | nil => simpa [insertByName] using hmem
  | cons first rest ih =>
    unfold insertByName
    split
    · simpa using hmem
    · split
      · next hsame =>
        obtain rfl : name = first := hsame
        simpa using hmem
      · rw [List.mem_cons, or_left_comm] at hmem
        exact List.mem_cons.mpr (hmem.imp_right ih)

/-- Sorting names loses none. -/
theorem mem_sortByName_iff {name : Name} {names : List Name} :
    name ∈ sortByName id names ↔ name ∈ names := by
  suffices h : ∀ sorted, name ∈ names.foldl (fun sorted item => insertByName id item sorted) sorted ↔
      name ∈ sorted ∨ name ∈ names from (h []).trans (by simp)
  induction names with
  | nil => simp
  | cons first rest ih =>
    intro sorted
    rw [List.foldl_cons, ih, mem_insertByName_iff, List.mem_cons, or_assoc, or_left_comm]

/-- A change that leaves the names alone makes no difference to the order. -/
theorem sortByName_map {α β : Type} {key : α → Name} {key' : β → Name} {change : α → β}
    (hkey : ∀ item, key' (change item) = key item) (items : List α) :
    sortByName key' (items.map change) = (sortByName key items).map change := by
  have hinsert : ∀ (item : α) (sorted : List α), insertByName key' (change item)
      (sorted.map change) = (insertByName key item sorted).map change := by
    intro item sorted
    induction sorted with
    | nil => rfl
    | cons first rest ih =>
      simp only [List.map_cons, insertByName, hkey, ih]
      split
      · rfl
      · split <;> rfl
  suffices h : ∀ sorted : List α,
      (items.map change).foldl (fun sorted item => insertByName key' item sorted)
          (sorted.map change) =
        (items.foldl (fun sorted item => insertByName key item sorted) sorted).map change from h []
  induction items with
  | nil => exact fun _ => rfl
  | cons item rest ih =>
    intro sorted
    rw [List.map_cons, List.foldl_cons, List.foldl_cons, hinsert, ih]

/-- Items that ascend already are left as they are. -/
theorem sortByName_of_ascending {α : Type} {key : α → Name} {items : List α}
    (hitems : AscendingByName key items) : sortByName key items = items := by
  suffices h : ∀ sorted, AscendingByName key (sorted ++ items) →
      items.foldl (fun sorted item => insertByName key item sorted) sorted = sorted ++ items from
    h [] hitems
  induction items with
  | nil => simp
  | cons item rest ih =>
    intro sorted hsorted
    obtain ⟨-, hrest, hbetween⟩ := List.pairwise_append.mp hsorted
    rw [List.foldl_cons, insertByName_of_last fun other hother =>
      hbetween other hother item List.mem_cons_self]
    rw [ih (List.pairwise_cons.mp hrest).2 _ (by simpa using hsorted)]
    simp

end OrPattern
