import Mathlib.Data.Finset.Card
import Mathlib.Data.Finset.Dedup
import OrPattern.Name.Table

namespace OrPattern

namespace NameTable

/-- The two sides of a table mirror one another: a text has a number exactly if it
    stands at that index. -/
def Consistent (table : NameTable) : Prop :=
  ∀ (text : String) (number : Nat),
    table.numbers.lookup text = some number ↔ table.texts[number]? = some text

/-- Every text of the first table stands in the second under the same number. -/
def KeptBy (table later : NameTable) : Prop :=
  ∀ ⦃number : Nat⦄ ⦃text : String⦄,
    table.texts[number]? = some text → later.texts[number]? = some text

/-- The texts that have a name. -/
def held (table : NameTable) : Finset String := table.texts.toList.toFinset

/-- The names stand for the texts, one for each in turn. -/
structure Named (table : NameTable) (texts : List String) (names : List Name) : Prop where
  reads : names.map table.lookup = texts
  inUse : ∀ name ∈ names, name.number < table.size

/-- Interns texts one after the other. The answers come in turn; a text for which
    there is no room leaves the table as it is. -/
def internAll : NameTable → List String → List (Except TableOverflow Name) × NameTable
  | table, [] => ([], table)
  | table, text :: rest =>
    match table.intern text with
    | .ok (name, next) =>
      let run := next.internAll rest
      (.ok name :: run.1, run.2)
    | .error overflow =>
      let run := table.internAll rest
      (.error overflow :: run.1, run.2)

variable {table next later : NameTable} {text : String} {texts : List String} {name : Name}
  {names : List Name}

namespace KeptBy

theorem refl (table : NameTable) : table.KeptBy table := fun _ _ htext => htext

theorem trans {a b c : NameTable} (hab : a.KeptBy b) (hbc : b.KeptBy c) : a.KeptBy c :=
  fun _ _ htext => hbc (hab htext)

end KeptBy

theorem mem_held_iff : text ∈ table.held ↔ ∃ number : Nat, table.texts[number]? = some text := by
  rw [held, List.mem_toFinset, Array.mem_toList_iff, Array.mem_iff_getElem?]

theorem held_empty : empty.held = {""} := rfl

theorem lookup_of_getElem? (htext : table.texts[name.number]? = some text) :
    table.lookup name = text := by
  rw [lookup, htext, Option.getD_some]

theorem getElem?_of_lt (hname : name.number < table.size) :
    table.texts[name.number]? = some (table.lookup name) := by
  rw [lookup, Array.getElem?_eq_getElem hname, Option.getD_some]

theorem lt_of_getElem? (htext : table.texts[name.number]? = some text) :
    name.number < table.size :=
  (Array.getElem?_eq_some_iff.mp htext).choose

/-- A name that no text was given reads as a placeholder. -/
theorem lookup_of_size_le (hname : table.size ≤ name.number) : table.lookup name = "<?>" := by
  rw [lookup, Array.getElem?_eq_none hname, Option.getD_none]

theorem keptBy_push (table : NameTable) (text : String) : table.KeptBy (table.push text).2 := by
  intro number other hother
  obtain ⟨hlt, -⟩ := Array.getElem?_eq_some_iff.mp hother
  rw [push, Array.getElem?_push_lt hlt, ← hother, Array.getElem?_eq_getElem hlt]

theorem held_push (table : NameTable) (text : String) :
    (table.push text).2.held = insert text table.held := by
  ext other
  simp [push, held]

/-- All that an attempt to intern a text can do. -/
theorem intern_cases (table : NameTable) (text : String) :
    (∃ name, table.find? text = some name ∧ table.intern text = .ok (name, table)) ∨
    (table.find? text = none ∧ table.size ≤ maxNumber ∧
      table.intern text = .ok (table.push text)) ∨
    (table.find? text = none ∧ maxNumber < table.size ∧
      table.intern text = .error ⟨table.size⟩) := by
  cases hfind : table.find? text with
  | some name => exact .inl ⟨name, rfl, by simp only [intern, hfind]⟩
  | none =>
    by_cases hroom : table.size ≤ maxNumber
    · exact .inr (.inl ⟨rfl, hroom, by simp only [intern, hfind, if_pos hroom]⟩)
    · exact .inr (.inr ⟨rfl, Nat.lt_of_not_le hroom, by simp only [intern, hfind, if_neg hroom]⟩)

theorem intern_of_find? (hfind : table.find? text = some name) :
    table.intern text = .ok (name, table) := by
  simp only [intern, hfind]

theorem consistent_empty : empty.Consistent := by
  intro text number
  have hnumbers : empty.numbers.lookup text = if text = "" then some 0 else none := by
    by_cases htext : text = ""
    · simp [empty, htext]
    · rw [empty, List.lookup_cons, beq_eq_false_iff_ne.mpr htext, if_neg htext, List.lookup_nil]
  rw [hnumbers]
  cases number <;> simp [empty, eq_comm]

namespace Consistent

theorem find?_eq_some_iff (htable : table.Consistent) :
    table.find? text = some name ↔ table.texts[name.number]? = some text := by
  rw [← htable text name.number, find?, Option.map_eq_some_iff]
  exact ⟨fun ⟨number, hnumber, hname⟩ => hname ▸ hnumber, fun hnumber => ⟨_, hnumber, rfl⟩⟩

/-- To find the name of a text and to read the text of a name undo each other. -/
theorem find?_eq_some_iff_lookup (htable : table.Consistent) :
    table.find? text = some name ↔ name.number < table.size ∧ table.lookup name = text := by
  rw [htable.find?_eq_some_iff]
  refine ⟨fun htext => ⟨lt_of_getElem? htext, lookup_of_getElem? htext⟩, ?_⟩
  rintro ⟨hlt, rfl⟩
  exact getElem?_of_lt hlt

theorem find?_lookup (htable : table.Consistent) (hname : name.number < table.size) :
    table.find? (table.lookup name) = some name :=
  htable.find?_eq_some_iff_lookup.mpr ⟨hname, rfl⟩

theorem find?_eq_none_iff (htable : table.Consistent) :
    table.find? text = none ↔ text ∉ table.held := by
  rw [Option.eq_none_iff_forall_ne_some, mem_held_iff, not_exists]
  refine ⟨fun hnone number => ?_, fun hnone name => ?_⟩
  · exact fun htext => hnone ⟨number⟩ (htable.find?_eq_some_iff.mpr htext)
  · exact fun hname => hnone name.number (htable.find?_eq_some_iff.mp hname)

theorem find?_of_keptBy (htable : table.Consistent) (hlater : later.Consistent)
    (hkept : table.KeptBy later) (hfind : table.find? text = some name) :
    later.find? text = some name :=
  hlater.find?_eq_some_iff.mpr (hkept (htable.find?_eq_some_iff.mp hfind))

/-- No text stands twice. -/
theorem card_held (htable : table.Consistent) : table.held.card = table.size := by
  refine List.toFinset_card_of_nodup (List.nodup_iff_getElem?_ne_getElem?.mpr ?_)
  intro one other hlt hother hsame
  rw [Array.getElem?_toList, Array.getElem?_toList] at hsame
  have hlast : other < table.texts.size := hother
  have htext := Array.getElem?_eq_getElem hlast
  have hnumber := (htable _ other).mpr htext
  rw [(htable _ one).mpr (hsame.trans htext)] at hnumber
  exact absurd (Option.some.inj hnumber) (Nat.ne_of_lt hlt)

/-- A text that has no name yet gets a name of its own. -/
theorem push (htable : table.Consistent) (hfresh : table.find? text = none) :
    (table.push text).2.Consistent := by
  intro other number
  -- The new pair hides no old one: its text had no number and its number no text.
  simp only [NameTable.push, Array.getElem?_push]
  by_cases hsame : other = text
  · have habsent : table.texts[number]? ≠ some text := fun htext => by
      have hfind : table.find? text = some ⟨number⟩ := htable.find?_eq_some_iff.mpr htext
      rw [hfind] at hfresh
      cases hfresh
    rw [hsame, List.lookup_cons_self]
    split
    · next hlast => exact iff_of_true (congrArg some hlast.symm) rfl
    · next hother => exact iff_of_false (fun heq => hother (Option.some.inj heq).symm) habsent
  · rw [List.lookup_cons, beq_eq_false_iff_ne.mpr hsame, htable other number]
    split
    · next hlast =>
      rw [hlast, Array.getElem?_eq_none (Nat.le_refl _)]
      exact iff_of_false nofun fun heq => hsame (Option.some.inj heq).symm
    · rfl

/-- Interning keeps the two sides of a table in agreement and its texts in place. -/
theorem intern (htable : table.Consistent) (hintern : table.intern text = .ok (name, next)) :
    next.Consistent ∧ table.KeptBy next ∧ next.find? text = some name ∧
      next.held = insert text table.held := by
  rcases intern_cases table text with ⟨found, hfind, hok⟩ | ⟨hfresh, -, hok⟩ | ⟨-, -, herror⟩
  · cases hok.symm.trans hintern
    have hmem : text ∈ table.held := mem_held_iff.mpr ⟨_, htable.find?_eq_some_iff.mp hfind⟩
    exact ⟨htable, .refl table, hfind, (Finset.insert_eq_of_mem hmem).symm⟩
  · cases hok.symm.trans hintern
    have hpushed := htable.push hfresh
    refine ⟨hpushed, keptBy_push table text, hpushed.find?_eq_some_iff.mpr ?_, held_push table text⟩
    exact Array.getElem?_push_size
  · cases herror.symm.trans hintern

/-- There is room for a text as long as there are not too many with it. -/
theorem exists_intern (htable : table.Consistent)
    (hroom : (insert text table.held).card ≤ maxNumber + 1) :
    ∃ name next, table.intern text = .ok (name, next) := by
  rcases intern_cases table text with ⟨name, -, hok⟩ | ⟨-, -, hok⟩ | ⟨hfresh, hfull, -⟩
  · exact ⟨name, table, hok⟩
  · exact ⟨_, _, hok⟩
  · rw [Finset.card_insert_of_notMem (htable.find?_eq_none_iff.mp hfresh), htable.card_held] at hroom
    omega

theorem internAll (htable : table.Consistent) (texts : List String) :
    (table.internAll texts).2.Consistent ∧ table.KeptBy (table.internAll texts).2 := by
  induction texts generalizing table with
  | nil => exact ⟨htable, .refl table⟩
  | cons text rest ih =>
    rw [NameTable.internAll]
    split
    · next name next hintern =>
      obtain ⟨hnext, hkept, -⟩ := htable.intern hintern
      exact ⟨(ih hnext).1, hkept.trans (ih hnext).2⟩
    · exact ih htable

/-- As long as there is room, every text gets a name. -/
theorem exists_named (htable : table.Consistent)
    (hroom : (table.held ∪ texts.toFinset).card ≤ maxNumber + 1) :
    ∃ names : List Name, (table.internAll texts).1 = names.map .ok ∧
      (table.internAll texts).2.Named texts names ∧
      (table.internAll texts).2.held = table.held ∪ texts.toFinset := by
  -- What is held and what is to come make up the same texts at every step, so the room
  -- for all of them is room for each.
  induction texts generalizing table with
  | nil => exact ⟨[], rfl, ⟨rfl, nofun⟩, by simp [NameTable.internAll]⟩
  | cons text rest ih =>
    have hmore : insert text table.held ∪ rest.toFinset = table.held ∪ (text :: rest).toFinset := by
      rw [List.toFinset_cons, Finset.insert_union, Finset.union_insert]
    rw [← hmore] at hroom ⊢
    obtain ⟨name, next, hintern⟩ := htable.exists_intern
      ((Finset.card_le_card Finset.subset_union_left).trans hroom)
    obtain ⟨hnext, -, hfind, hheld⟩ := htable.intern hintern
    rw [← hheld] at hroom ⊢
    obtain ⟨names, hanswers, hnamed, hlast⟩ := ih hnext hroom
    have hname := (hnext.internAll rest).2 (hnext.find?_eq_some_iff.mp hfind)
    simp only [NameTable.internAll, hintern]
    refine ⟨name :: names, by rw [hanswers, List.map_cons], ⟨?_, ?_⟩, hlast⟩
    · rw [List.map_cons, hnamed.reads, lookup_of_getElem? hname]
    · exact List.forall_mem_cons.mpr ⟨lt_of_getElem? hname, hnamed.inUse⟩

end Consistent

namespace Named

theorem getElem?_texts (hnamed : table.Named texts names) (i : Nat) :
    texts[i]? = names[i]?.map table.lookup := by
  rw [← List.getElem?_map, hnamed.reads]

theorem getElem?_names (hnamed : table.Named texts names) (htable : table.Consistent) (i : Nat) :
    names[i]? = texts[i]?.bind table.find? := by
  rw [hnamed.getElem?_texts]
  cases hname : names[i]? with
  | none => rfl
  | some name => exact (htable.find?_lookup (hnamed.inUse name (List.mem_of_getElem? hname))).symm

/-- Two names are equal exactly if the two texts are. -/
theorem getElem?_eq_iff (hnamed : table.Named texts names) (htable : table.Consistent)
    (i j : Nat) : names[i]? = names[j]? ↔ texts[i]? = texts[j]? := by
  refine ⟨fun hsame => ?_, fun hsame => ?_⟩
  · rw [hnamed.getElem?_texts, hsame, ← hnamed.getElem?_texts]
  · rw [hnamed.getElem?_names htable, hsame, ← hnamed.getElem?_names htable]

/-- A name in use that reads as one of the texts is the one that the text was given. -/
theorem mem_of_lt_size (hnamed : table.Named texts names) (htable : table.Consistent)
    (hname : name.number < table.size) (htext : table.lookup name ∈ texts) : name ∈ names := by
  rw [← hnamed.reads] at htext
  obtain ⟨other, hother, hsame⟩ := List.mem_map.mp htext
  have hfind := htable.find?_lookup hname
  rw [← hsame, htable.find?_lookup (hnamed.inUse other hother)] at hfind
  exact Option.some.inj hfind ▸ hother

/-- A text that is offered again gets the name that it got before. -/
theorem intern_again (hnamed : table.Named texts names) (htable : table.Consistent)
    (hlater : later.Consistent) (hkept : table.KeptBy later) {i : Nat}
    (htext : texts[i]? = some text) :
    ∃ name, names[i]? = some name ∧ later.intern text = .ok (name, later) := by
  rw [hnamed.getElem?_texts] at htext
  obtain ⟨name, hname, rfl⟩ := Option.map_eq_some_iff.mp htext
  have hfind := htable.find?_lookup (hnamed.inUse name (List.mem_of_getElem? hname))
  exact ⟨name, hname, intern_of_find? (htable.find?_of_keptBy hlater hkept hfind)⟩

end Named

/-- Names and texts determine one another, for good. If a new table is offered texts,
    of which there are fewer different ones than numbers, then each gets a name that
    reads as that text, the same text always the same name and different texts
    different ones. The numbers in use are those below the size of the table, which
    counts the different texts and the empty one, numbered zero; any other name reads
    as a placeholder. Whatever is offered later, even if there is no room for it, no
    name reads otherwise and no text gets another name. -/
theorem interning_bijective (hfew : texts.toFinset.card ≤ maxNumber) :
    ∃ (names : List Name) (table : NameTable), empty.internAll texts = (names.map .ok, table) ∧
      names.map table.lookup = texts ∧
      (∀ i j : Nat, names[i]? = names[j]? ↔ texts[i]? = texts[j]?) ∧
      (∀ text name, table.find? text = some name ↔
        name.number < table.size ∧ table.lookup name = text) ∧
      (∀ name, name = .empty ∨ name ∈ names ↔ name.number < table.size) ∧
      table.lookup .empty = "" ∧
      table.size = (texts.toFinset.erase "").card + 1 ∧
      (∀ name, table.size ≤ name.number → table.lookup name = "<?>") ∧
      ∀ more : List String, let later := (table.internAll more).2
        (∀ name, name.number < table.size → later.lookup name = table.lookup name) ∧
        later.intern "" = .ok (.empty, later) ∧
        ∀ (i : Nat) (text : String), texts[i]? = some text →
          ∃ name, names[i]? = some name ∧ later.intern text = .ok (name, later) := by
  have hroom : (empty.held ∪ texts.toFinset).card ≤ maxNumber + 1 := by
    have hunion := Finset.card_union_le empty.held texts.toFinset
    rw [held_empty, Finset.card_singleton] at hunion
    rw [held_empty]
    omega
  obtain ⟨htable, hkept⟩ := consistent_empty.internAll texts
  obtain ⟨names, hanswers, hnamed, hheld⟩ := consistent_empty.exists_named hroom
  generalize empty.internAll texts = run at htable hkept hanswers hnamed hheld ⊢
  obtain ⟨answers, table⟩ := run
  obtain rfl : answers = names.map .ok := hanswers
  rw [held_empty, Finset.singleton_union] at hheld
  have hblank : table.texts[0]? = some "" := hkept rfl
  have hfindBlank : table.find? "" = some .empty := htable.find?_eq_some_iff.mpr hblank
  refine ⟨names, table, rfl, hnamed.reads, hnamed.getElem?_eq_iff htable,
    fun text name => htable.find?_eq_some_iff_lookup, fun name => ⟨?_, fun hname => ?_⟩,
    lookup_of_getElem? hblank, ?_, fun name => lookup_of_size_le, fun more => ?_⟩
  · rintro (rfl | hname)
    · exact lt_of_getElem? hblank
    · exact hnamed.inUse name hname
  · have htext : table.lookup name ∈ table.held := mem_held_iff.mpr ⟨_, getElem?_of_lt hname⟩
    rw [hheld, Finset.mem_insert, List.mem_toFinset] at htext
    refine htext.imp (fun hsame => ?_) (hnamed.mem_of_lt_size htable hname)
    have hfind := htable.find?_lookup hname
    rw [hsame, hfindBlank] at hfind
    exact (Option.some.inj hfind).symm
  · rw [← htable.card_held, hheld, ← Finset.card_erase_add_one (Finset.mem_insert_self "" _),
      Finset.erase_insert_eq_erase]
  · obtain ⟨hlater, hkeptLater⟩ := htable.internAll more
    exact ⟨fun name hname => lookup_of_getElem? (hkeptLater (getElem?_of_lt hname)),
      intern_of_find? (htable.find?_of_keptBy hlater hkeptLater hfindBlank),
      fun i text => hnamed.intern_again htable hlater hkeptLater⟩

/-- A text that is offered twice, and the empty text in between. -/
theorem interning_bijective_of_repeats :
    let texts := ["x", "", "y", "x"]
    ∃ (names : List Name) (table : NameTable), empty.internAll texts = (names.map .ok, table) ∧
      names.map table.lookup = texts ∧ names[0]? = names[3]? ∧ names[0]? ≠ names[2]? ∧
      table.size = 3 ∧ table.lookup ⟨3⟩ = "<?>" ∧
      ∀ more, ∃ name, names[2]? = some name ∧
        (table.internAll more).2.intern "y" = .ok (name, (table.internAll more).2) := by
  intro texts
  have hfew : texts.toFinset.card ≤ maxNumber := by decide
  obtain ⟨names, table, hrun, hreads, hsame, -, -, -, hsize, hforeign, hlater⟩ :=
    interning_bijective hfew
  have hthree : table.size = 3 := hsize.trans (by decide)
  refine ⟨names, table, hrun, hreads, (hsame 0 3).mpr rfl, fun heq => ?_, hthree,
    hforeign ⟨3⟩ (Nat.le_of_eq hthree), fun more => (hlater more).2.2 2 "y" rfl⟩
  exact absurd ((hsame 0 2).mp heq) (by decide)

end NameTable

end OrPattern
