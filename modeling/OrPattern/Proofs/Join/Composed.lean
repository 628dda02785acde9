import OrPattern.Proofs.Join.Parts

namespace OrPattern

theorem exists_getElem?_of_length_eq {α β : Type} {xs : List α} {ys : List β} {index : Nat} {x : α}
    (hlength : xs.length = ys.length) (hx : xs[index]? = some x) : ∃ y, ys[index]? = some y := by
  have hlt : index < ys.length := hlength ▸ (List.getElem?_eq_some_iff.mp hx).choose
  exact ⟨ys[index], List.getElem?_eq_getElem hlt⟩

namespace Pool

variable {pool later next : Pool} {a b bound : Ty}

/-- Above two tuples stand tuples, with every element above those of both. -/
theorem WellFormed.above_tuples (hlater : later.WellFormed) {xs ys : List Ty}
    (ha : later.form? a = some (.tuple xs)) (hb : later.form? b = some (.tuple ys))
    (habove : later.Above (Pair a b) bound) :
    ∃ us, later.form? bound = some (.tuple us) ∧ xs.length = us.length ∧
      ∀ (index : Nat) (x y u : Ty), xs[index]? = some x → ys[index]? = some y →
        us[index]? = some u → later.Above (Pair x y) u := by
  obtain ⟨hlow, hhigh⟩ := above_pair_iff.mp habove
  obtain ⟨us, hbound, harity, hxs⟩ := hlow.of_tuple hlater ha
  obtain ⟨us', hbound', -, hys⟩ := hhigh.of_tuple hlater hb
  cases hbound.symm.trans hbound'
  refine ⟨us, hbound, harity, fun index x y u hx hy hu => ?_⟩
  exact above_pair_iff.mpr ⟨hxs index x u hx hu, hys index y u hy hu⟩

/-- Above two records that do not compare stand non-empty records, with every
    field above those of both. -/
theorem WellFormed.above_records (hlater : later.WellFormed) {xs ys : List (Name × Ty)}
    (ha : later.form? a = some (.record xs)) (hb : later.form? b = some (.record ys))
    (hba : ¬ later.Below b a) (habove : later.Above (Pair a b) bound) :
    ∃ us, later.form? bound = some (.record us) ∧ us ≠ [] ∧
      ∀ (name : Name) (u : Ty), (name, u) ∈ us →
        ∃ x y, (name, x) ∈ xs ∧ (name, y) ∈ ys ∧ later.Above (Pair x y) u := by
  obtain ⟨hlow, hhigh⟩ := above_pair_iff.mp habove
  obtain ⟨us, hbound, hcases, hxs⟩ := hlow.of_record hlater ha
  obtain ⟨us', hbound', -, hys⟩ := hhigh.of_record hlater hb
  cases hbound.symm.trans hbound'
  refine ⟨us, hbound, hcases.resolve_right fun heq => hba (heq ▸ hhigh), fun name u hu => ?_⟩
  obtain ⟨x, hx, hxu⟩ := hxs name u hu
  obtain ⟨y, hy, hyu⟩ := hys name u hu
  exact ⟨x, y, hx, hy, above_pair_iff.mpr ⟨hxu, hyu⟩⟩

/-- Tuples join element by element. -/
theorem ElementsJoinTo.leastAbove {xs ys types : List Ty}
    (ha : pool.form? a = some (.tuple xs)) (hb : pool.form? b = some (.tuple ys))
    (harity : xs.length = ys.length) (hnonempty : xs ≠ [])
    (hjoins : pool.ElementsJoinTo xs ys (some types, next)) :
    pool.JoinsTo (Pair a b) (some (next.tuple types).1, (next.tuple types).2) := by
  obtain ⟨hlength, helements⟩ := hjoins.least rfl
  have hnext : next.WellFormed := hjoins.wellFormed
  have hlast : next.KeptBy (next.tuple types).2 := keptBy_tuple next types
  have hform := hnext.form?_tuple types
  have hknown : ∀ type ∈ types, next.contains type := by
    intro type hmem
    obtain ⟨index, hindex⟩ := List.mem_iff_getElem?.mp hmem
    obtain ⟨x, hx⟩ := exists_getElem?_of_length_eq hlength hindex
    obtain ⟨y, hy⟩ := exists_getElem?_of_length_eq harity hx
    exact (helements index x y type hx hy hindex).1
  refine ⟨hnext.tuple hknown, hjoins.kept.trans hlast, fun heq => ?_, nofun⟩
  obtain rfl := Option.some.inj heq
  refine ⟨contains_of_form? hform, fun later hlater hkept => ?_⟩
  have hold : pool.KeptBy later := hjoins.kept.trans (hlast.trans hkept)
  have hleast : ∀ (index : Nat) (x y type : Ty), xs[index]? = some x → ys[index]? = some y →
      types[index]? = some type → later.LeastAbove (Pair x y) type :=
    fun index x y type hx hy htype =>
      (helements index x y type hx hy htype).2.mono (hlast.trans hkept)
  constructor
  · refine above_pair_iff.mpr ⟨?_, ?_⟩
    · refine .tuple (hold.form? ha) (hkept.form? hform) hlength.symm hnonempty ?_
      intro index x type hx htype
      obtain ⟨y, hy⟩ := exists_getElem?_of_length_eq harity hx
      exact (above_pair_iff.mp ((hleast index x y type hx hy htype).above hlater)).1
    · have hnonempty' : ys ≠ [] := by
        rintro rfl
        exact hnonempty (List.length_eq_zero_iff.mp harity)
      refine .tuple (hold.form? hb) (hkept.form? hform) (hlength.trans harity).symm hnonempty' ?_
      intro index y type hy htype
      obtain ⟨x, hx⟩ := exists_getElem?_of_length_eq harity.symm hy
      exact (above_pair_iff.mp ((hleast index x y type hx hy htype).above hlater)).2
  · intro bound habove
    obtain ⟨us, hbound, harity', hus⟩ := hlater.above_tuples (hold.form? ha) (hold.form? hb) habove
    have htypes : types ≠ [] := by
      rintro rfl
      exact hnonempty (List.length_eq_zero_iff.mp hlength.symm)
    refine .tuple (hkept.form? hform) hbound (hlength.trans harity') htypes ?_
    intro index type u htype hu
    obtain ⟨x, hx⟩ := exists_getElem?_of_length_eq hlength htype
    obtain ⟨y, hy⟩ := exists_getElem?_of_length_eq harity hx
    exact (hleast index x y type hx hy htype).below hlater (hus index x y u hx hy hu)

theorem ElementsJoinTo.noneAbove {xs ys : List Ty} (ha : pool.form? a = some (.tuple xs))
    (hb : pool.form? b = some (.tuple ys)) (hjoins : pool.ElementsJoinTo xs ys (none, next)) :
    pool.JoinsTo (Pair a b) (none, next) := by
  refine ⟨hjoins.wellFormed, hjoins.kept, nofun, fun _ later hlater hkept bound habove => ?_⟩
  have hold : pool.KeptBy later := hjoins.kept.trans hkept
  obtain ⟨index, x, y, hx, hy, hnone⟩ := hjoins.noBound rfl
  obtain ⟨us, -, harity, hus⟩ := hlater.above_tuples (hold.form? ha) (hold.form? hb) habove
  obtain ⟨u, hu⟩ := exists_getElem?_of_length_eq harity hx
  exact hnone later hlater hkept u (hus index x y u hx hy hu)

/-- Records join field by field, as long as some field is left. -/
theorem FieldsJoinTo.leastAbove (hpool : pool.WellFormed) {xs ys fields : List (Name × Ty)}
    (ha : pool.form? a = some (.record xs)) (hb : pool.form? b = some (.record ys))
    (hba : ¬ pool.Below b a) (hnonempty : fields ≠ [])
    (hjoins : pool.FieldsJoinTo xs ys (fields, next)) :
    pool.JoinsTo (Pair a b) (some (next.record fields).1, (next.record fields).2) := by
  have hnext : next.WellFormed := hjoins.wellFormed
  have hlast : next.KeptBy (next.record fields).2 := keptBy_record next fields
  have hascending : AscendingByName Prod.fst fields :=
    (hpool.ascending ha).of_sublist hjoins.order
  have hform := form?_record next fields
  rw [sortByName_of_ascending hascending] at hform
  have hknown : ∀ field ∈ fields, next.contains field.2 := by
    rintro ⟨name, type⟩ hmem
    obtain ⟨_, _, _, _, hcontains, _⟩ := hjoins.joined hmem
    exact hcontains
  refine ⟨hnext.record hknown, hjoins.kept.trans hlast, fun heq => ?_, nofun⟩
  obtain rfl := Option.some.inj heq
  refine ⟨contains_of_form? hform, fun later hlater hkept => ?_⟩
  have hold : pool.KeptBy later := hjoins.kept.trans (hlast.trans hkept)
  constructor
  · refine above_pair_iff.mpr ⟨?_, ?_⟩
    · refine hlater.record_below (hold.form? ha) (hkept.form? hform) hnonempty ?_
      intro name type hmem
      obtain ⟨x, y, hx, -, -, hleast⟩ := hjoins.joined hmem
      exact ⟨x, hx, (above_pair_iff.mp ((hleast.mono (hlast.trans hkept)).above hlater)).1⟩
    · refine hlater.record_below (hold.form? hb) (hkept.form? hform) hnonempty ?_
      intro name type hmem
      obtain ⟨x, y, -, hy, -, hleast⟩ := hjoins.joined hmem
      exact ⟨y, hy, (above_pair_iff.mp ((hleast.mono (hlast.trans hkept)).above hlater)).2⟩
  · intro bound habove
    have hba' : ¬ later.Below b a := fun h =>
      hba (h.of_later hpool hold (contains_of_form? hb) (contains_of_form? ha))
    obtain ⟨us, hbound, hnonempty', hus⟩ :=
      hlater.above_records (hold.form? ha) (hold.form? hb) hba' habove
    refine hlater.record_below (hkept.form? hform) hbound hnonempty' ?_
    intro name u hu
    obtain ⟨x, y, hx, hy, hxyu⟩ := hus name u hu
    rcases hjoins.dropped hx hy with ⟨type, hmem, hleast⟩ | hnone
    · exact ⟨type, hmem, (hleast.mono (hlast.trans hkept)).below hlater hxyu⟩
    · exact absurd hxyu (hnone later hlater (hlast.trans hkept) u)

/-- An empty record is above no other, so at least one field must join. -/
theorem FieldsJoinTo.noneAbove (hpool : pool.WellFormed) {xs ys : List (Name × Ty)}
    (ha : pool.form? a = some (.record xs)) (hb : pool.form? b = some (.record ys))
    (hba : ¬ pool.Below b a) (hjoins : pool.FieldsJoinTo xs ys ([], next)) :
    pool.JoinsTo (Pair a b) (none, next) := by
  refine ⟨hjoins.wellFormed, hjoins.kept, nofun, fun _ later hlater hkept bound habove => ?_⟩
  have hold : pool.KeptBy later := hjoins.kept.trans hkept
  have hba' : ¬ later.Below b a := fun h =>
    hba (h.of_later hpool hold (contains_of_form? hb) (contains_of_form? ha))
  obtain ⟨us, -, hnonempty, hus⟩ :=
    hlater.above_records (hold.form? ha) (hold.form? hb) hba' habove
  obtain ⟨⟨name, u⟩, rest, rfl⟩ := List.exists_cons_of_ne_nil hnonempty
  obtain ⟨x, y, hx, hy, hxyu⟩ := hus name u List.mem_cons_self
  rcases hjoins.dropped hx hy with ⟨type, hmem, -⟩ | hnone
  · exact absurd hmem List.not_mem_nil
  · exact hnone later hlater hkept u hxyu

end Pool

end OrPattern
