namespace OrPattern

/-- An identifier: a tag, a record field, a bound variable or the contents of a
    string. Names are compared by number; the numbers follow the order in which
    the texts were first met and say nothing about spelling. -/
structure Name where
  number : Nat
deriving DecidableEq, Repr

namespace Name

/-- The name of the empty text, which every table holds from the start. -/
def empty : Name := ⟨0⟩

/-- The form in which a fault report writes a name: its number, not its text. -/
def debug (name : Name) : String := s!"Name({name.number})"

end Name

/-- Puts an item at its place by name number. An item whose name is already
    there is dropped, so the first of several wins. -/
def insertByName {α : Type} (key : α → Name) (item : α) : List α → List α
  | [] => [item]
  | other :: rest =>
    if (key item).number < (key other).number then item :: other :: rest
    else if key item = key other then other :: rest
    else other :: insertByName key item rest

/-- The items in ascending name order, the first item of each name only. -/
def sortByName {α : Type} (key : α → Name) (items : List α) : List α :=
  items.foldl (fun sorted item => insertByName key item sorted) []

/-- Items in strictly ascending name order, hence no name twice. -/
def AscendingByName {α : Type} (key : α → Name) (items : List α) : Prop :=
  items.Pairwise fun a b => (key a).number < (key b).number

theorem eq_or_mem_of_mem_insertByName {α : Type} {key : α → Name} {item other : α}
    {items : List α} (hmem : other ∈ insertByName key item items) : other = item ∨ other ∈ items := by
  induction items with
  | nil => simpa [insertByName] using hmem
  | cons first rest ih =>
    unfold insertByName at hmem
    split at hmem
    · simpa using hmem
    · split at hmem
      · exact .inr hmem
      · rcases List.mem_cons.mp hmem with rfl | hrest
        · simp
        · rcases ih hrest with rfl | hrest
          · simp
          · simp [hrest]

theorem AscendingByName.insertByName {α : Type} {key : α → Name} {items : List α}
    (hitems : AscendingByName key items) (item : α) :
    AscendingByName key (insertByName key item items) := by
  induction items with
  | nil => simp [OrPattern.insertByName, AscendingByName]
  | cons first rest ih =>
    obtain ⟨hfirst, hrest⟩ := List.pairwise_cons.mp hitems
    unfold OrPattern.insertByName
    split
    · refine List.pairwise_cons.mpr ⟨fun other hother => ?_, hitems⟩
      rcases List.mem_cons.mp hother with rfl | hother
      · assumption
      · have := hfirst other hother
        omega
    · split
      · exact hitems
      · refine List.pairwise_cons.mpr ⟨fun other hother => ?_, ih hrest⟩
        rcases eq_or_mem_of_mem_insertByName hother with rfl | hother
        · have hne : (key other).number ≠ (key first).number := fun h =>
            absurd (show key other = key first by cases h' : key other; cases h'' : key first; simp_all) ‹_›
          omega
        · exact hfirst other hother

/-- Sorting leaves one item per name, in strictly ascending order. -/
theorem ascendingByName_sortByName {α : Type} (key : α → Name) (items : List α) :
    AscendingByName key (sortByName key items) := by
  suffices h : ∀ sorted, AscendingByName key sorted →
      AscendingByName key (items.foldl (fun sorted item => insertByName key item sorted) sorted) from
    h [] List.Pairwise.nil
  induction items with
  | nil => exact fun _ h => h
  | cons item rest ih => exact fun sorted h => ih _ (h.insertByName item)

end OrPattern
