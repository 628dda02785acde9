import Mathlib.Data.List.Nodup
import OrPattern.Name

namespace OrPattern

variable {α : Type} {name : Name} {value : α} {entries : List (Name × α)}

theorem mem_of_lookup (hlookup : entries.lookup name = some value) : (name, value) ∈ entries := by
  obtain ⟨before, after, rfl, -⟩ := List.lookup_eq_some_iff.mp hlookup
  exact List.mem_append_right _ List.mem_cons_self

theorem lookup_isSome_iff_mem : (entries.lookup name).isSome ↔ name ∈ entries.map Prod.fst := by
  rw [List.lookup_isSome_iff, List.mem_map]
  refine exists_congr fun entry => and_congr_right fun _ => ?_
  rw [beq_iff_eq, eq_comm]

theorem lookup_map {β : Type} (change : α → β) (name : Name) (entries : List (Name × α)) :
    (entries.map fun entry => (entry.1, change entry.2)).lookup name =
      (entries.lookup name).map change := by
  induction entries with
  | nil => rfl
  | cons entry rest ih =>
    obtain ⟨key, value⟩ := entry
    simp only [List.map_cons, List.lookup_cons, ih]
    split <;> rfl

/-- Where no name occurs twice, every entry is found under its name. -/
theorem lookup_eq_some_iff_mem (hnodup : (entries.map Prod.fst).Nodup) :
    entries.lookup name = some value ↔ (name, value) ∈ entries := by
  refine ⟨mem_of_lookup, fun hmem => ?_⟩
  obtain ⟨found, hfound⟩ := Option.isSome_iff_exists.mp
    (lookup_isSome_iff_mem.mpr (List.mem_map.mpr ⟨_, hmem, rfl⟩))
  have hsame := List.inj_on_of_nodup_map hnodup (mem_of_lookup hfound) hmem rfl
  rw [hfound, (Prod.mk.inj hsame).2]

/-- Lists of the same items whose keys stand in the same order, none twice. -/
theorem eq_of_perm_of_keys {β : Type} {key : α → β} {items others : List α}
    (hperm : items.Perm others) (hkeys : items.map key = others.map key)
    (hnodup : (items.map key).Nodup) : items = others := by
  induction items generalizing others with
  | nil => exact hperm.nil_eq
  | cons item rest ih =>
    cases others with
    | nil => cases hkeys
    | cons other others =>
      obtain ⟨hkey, hrest⟩ := List.cons.inj hkeys
      have hsame : item = other := List.inj_on_of_nodup_map hnodup List.mem_cons_self
        (hperm.mem_iff.mpr List.mem_cons_self) hkey
      subst hsame
      rw [ih ((List.perm_cons item).mp hperm) hrest (List.nodup_cons.mp hnodup).2]

end OrPattern
