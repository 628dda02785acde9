import OrPattern.Proofs.Join.Depth
import OrPattern.Ty.Render

namespace OrPattern

/-- A composed form has a declared type in it if a component has; a declaration
    has itself. -/
theorem Flags.hasNominal_ofForm (flagsOf : Ty → Flags) (form : Form) :
    (ofForm flagsOf form).hasNominal =
      (form.isNominal || form.components.any fun part => (flagsOf part).hasNominal) := by
  cases form with
  | tuple elements =>
    cases elements <;>
      simp [ofForm, inheritedFromAll_eq, Form.isNominal, Form.components, Function.comp_def]
  | record fields =>
    simp [ofForm, inheritedFromAll_eq, Form.isNominal, Form.components, Function.comp_def]
  | _ => rfl

/-- The text of a form depends on the texts of its components only. -/
theorem Form.render_congr {typeText otherText : Ty → String} (nameText : Name → String)
    {form : Form} (hagree : ∀ part ∈ form.components, otherText part = typeText part) :
    form.render otherText nameText = form.render typeText nameText := by
  cases form with
  | tuple elements =>
    have hmap : elements.map otherText = elements.map typeText := List.map_congr_left hagree
    match elements with
    | [] => rfl
    | [element] => simp only [render, hagree element List.mem_cons_self]
    | first :: second :: rest => simp only [render, hmap]
  | record fields =>
    have hmap : (fields.map fun field => nameText field.1 ++ ": " ++ otherText field.2) =
        fields.map fun field => nameText field.1 ++ ": " ++ typeText field.2 :=
      List.map_congr_left fun field hfield => by
        rw [hagree field.2 (List.mem_map.mpr ⟨field, hfield, rfl⟩)]
    cases fields with
    | nil => rfl
    | cons field rest => simp only [render, hmap]
  | _ => rfl

namespace Pool

/-- A type occurs in itself, and in every tuple and record that it occurs in a part
    of. -/
inductive Occurs (pool : Pool) (inner : Ty) : Ty → Prop where
  | here : Occurs pool inner inner
  | within {type part : Ty} {form : Form} (whole : pool.form? type = some form)
      (member : part ∈ form.components) (inside : Occurs pool inner part) :
      Occurs pool inner type

variable {pool : Pool} {type : Ty}

namespace WellFormed

/-- Tuples and records are entered once: their contents determine the number. -/
theorem intern_of_form? (hpool : pool.WellFormed) {form : Form}
    (hform : pool.form? type = some form) (hstructural : form.isNominal = false) :
    pool.intern form = (type, pool) := by
  have hentered := form?_intern pool form
  rcases intern_cases pool form with hsame | ⟨-, hfresh⟩
  · rw [hsame] at hentered
    exact Prod.ext (hpool.unique hentered hform hstructural) hsame
  · exact absurd hform (hfresh type)

theorem tuple_of_form? (hpool : pool.WellFormed) {elements : List Ty}
    (hform : pool.form? type = some (.tuple elements)) : pool.tuple elements = (type, pool) := by
  cases elements with
  | nil => exact Prod.ext (hpool.unique (@hpool.primitives 9 _ rfl) hform rfl) rfl
  | cons first rest => exact hpool.intern_of_form? hform rfl

theorem record_of_form? (hpool : pool.WellFormed) {fields : List (Name × Ty)}
    (hform : pool.form? type = some (.record fields)) : pool.record fields = (type, pool) := by
  rw [Pool.record, sortByName_of_ascending (hpool.ascending hform)]
  exact hpool.intern_of_form? hform rfl

/-- What is remembered about a type tells whether a declared type occurs in it. -/
theorem hasNominal_iff (hpool : pool.WellFormed) :
    (pool.flags type).hasNominal = true ↔
      ∃ inner, pool.Occurs inner type ∧ pool.isNominal inner = true := by
  induction hindex : type.index using Nat.strongRecOn generalizing type with
  | _ index ih =>
    cases hform : pool.form? type with
    | none =>
      rw [flags_eq_empty_of_form? hform]
      refine ⟨nofun, ?_⟩
      rintro ⟨inner, hoccurs, hnominal⟩
      cases hoccurs with
      | here => simp [isNominal, hform] at hnominal
      | within whole _ _ => cases hform.symm.trans whole
    | some form =>
      have hpart : ∀ part ∈ form.components, (pool.flags part).hasNominal = true ↔
          ∃ inner, pool.Occurs inner part ∧ pool.isNominal inner = true := fun part hmem =>
        ih part.index (hindex ▸ hpool.older hform part (Form.mem_mentions_of_mem_components hmem))
          rfl
      rw [hpool.flagsOf hform, Flags.hasNominal_ofForm, Bool.or_eq_true, List.any_eq_true]
      constructor
      · rintro (hnominal | ⟨part, hmem, hflag⟩)
        · exact ⟨type, .here, isNominal_iff.mpr ⟨form, hform, hnominal⟩⟩
        · obtain ⟨inner, hoccurs, hnominal⟩ := (hpart part hmem).mp hflag
          exact ⟨inner, .within hform hmem hoccurs, hnominal⟩
      · rintro ⟨inner, hoccurs, hnominal⟩
        cases hoccurs with
        | here =>
          obtain ⟨found, hfound, hnominal⟩ := isNominal_iff.mp hnominal
          cases hform.symm.trans hfound
          exact .inl hnominal
        | within whole member inside =>
          cases hform.symm.trans whole
          exact .inr ⟨_, member, (hpart _ member).mpr ⟨inner, inside, hnominal⟩⟩

/-- The depth that a test of the order starts with is no limit. -/
theorem isSubtypeWithin_eq (hpool : pool.WellFormed) {depth : Nat} (hdepth : type.index < depth)
    (sup : Ty) : pool.isSubtypeWithin depth type sup = pool.isSubtype type sup := by
  rw [Bool.eq_iff_iff, hpool.isSubtype_iff, hpool.isSubtypeWithin_iff (by omega)]

theorem renderWithin_eq (hpool : pool.WellFormed) (names : NameTable) {depth deeper : Nat}
    (hdepth : type.index < depth) (hdeeper : type.index < deeper) :
    pool.renderWithin names deeper type = pool.renderWithin names depth type := by
  induction depth generalizing type deeper with
  | zero => omega
  | succ depth ih =>
    obtain ⟨deeper, rfl⟩ : ∃ rest, deeper = rest + 1 := ⟨deeper - 1, by omega⟩
    simp only [renderWithin]
    cases hform : pool.form? type with
    | none => rfl
    | some form =>
      refine Form.render_congr names.lookup fun part hpart => ?_
      have := hpool.older hform part (Form.mem_mentions_of_mem_components hpart)
      exact ih (by omega) (by omega)

/-- The depth that a type is spelled out to is no limit. -/
theorem renderWithin_eq_render (hpool : pool.WellFormed) (names : NameTable) {depth : Nat}
    (hdepth : type.index < depth) : pool.renderWithin names depth type = pool.render names type := by
  by_cases hknown : pool.contains type
  · exact hpool.renderWithin_eq names (Nat.lt_succ_of_lt (contains_iff.mp hknown)) hdepth
  · have hform : pool.form? type = none :=
      Option.not_isSome_iff_eq_none.mp (hknown ∘ form?_isSome_iff.mp)
    obtain ⟨rest, rfl⟩ : ∃ rest, depth = rest + 1 := ⟨depth - 1, by omega⟩
    simp only [render, renderWithin, hform]

end WellFormed

/-- How a pool represents types, whatever it was built by. Tuples and records
    stand once, so their contents determine the number. Parts and parents are older
    than what they are part or parent of, so no descent into them is cut short,
    neither by the order, nor by a join, nor by the text of a type. The flags are
    what the current flags of the components give. -/
theorem representation_invariant (hpool : pool.Reachable) :
    (∀ one other form, pool.form? one = some form → pool.form? other = some form →
      form.isNominal = false → one = other) ∧
    (∀ type elements, pool.form? type = some (.tuple elements) →
      pool.tuple elements = (type, pool)) ∧
    (∀ type fields, pool.form? type = some (.record fields) →
      AscendingByName Prod.fst fields ∧ pool.record fields = (type, pool)) ∧
    (∀ type form, pool.form? type = some form →
      (∀ part ∈ form.components, part.index < type.index) ∧
      (∀ parent, form.parent? = some parent →
        parent.index < type.index ∧ pool.isNominal parent = true) ∧
      pool.flags type = Flags.ofForm pool.flags form) ∧
    (∀ type depth, type.index < depth →
      (∀ sup, pool.isSubtypeWithin depth type sup = pool.isSubtype type sup) ∧
      (∀ other, pool.contains type → pool.contains other →
        joinWithin depth pool type other = pool.join type other) ∧
      ∀ names, pool.renderWithin names depth type = pool.render names type) ∧
    ∀ type, (pool.flags type).hasNominal = true ↔
      ∃ inner, pool.Occurs inner type ∧ pool.isNominal inner = true := by
  have hwell := hpool.wellFormed
  refine ⟨fun one other form hone hother => hwell.unique hone hother,
    fun type elements hform => hwell.tuple_of_form? hform,
    fun type fields hform => ⟨hwell.ascending hform, hwell.record_of_form? hform⟩,
    fun type form hform => ⟨fun part hpart => ?_, fun parent hparent => ?_, hwell.flagsOf hform⟩,
    fun type depth hdepth => ⟨hwell.isSubtypeWithin_eq hdepth, fun other htype hother => ?_,
      fun names => hwell.renderWithin_eq_render names hdepth⟩,
    fun type => hwell.hasNominal_iff⟩
  · exact hwell.older hform part (Form.mem_mentions_of_mem_components hpart)
  · exact ⟨hwell.older hform parent (Form.mem_mentions_of_parent? hparent),
      hwell.nominalParent hform hparent⟩
  · exact hwell.joinWithin_eq_join htype hother hdepth

/-- Two records that share a field with a class in it: so does the record they
    join at. -/
theorem representation_invariant_of_records :
    let pool := ((((initial.declareClass ⟨1⟩ none).2.tuple [⟨11⟩, .i8]).2.record
      [(⟨3⟩, ⟨12⟩), (⟨2⟩, .i8)]).2.record [(⟨3⟩, ⟨12⟩), (⟨4⟩, .bool)]).2.join ⟨13⟩ ⟨14⟩
    pool.1 = some ⟨15⟩ ∧ pool.2.record [(⟨3⟩, ⟨12⟩)] = (⟨15⟩, pool.2) ∧
      ∃ inner, pool.2.Occurs inner ⟨15⟩ ∧ pool.2.isNominal inner = true := by
  intro pool
  have hpool : pool.2.Reachable :=
    ((((Grows.refl initial).declareClass ⟨1⟩ none (by decide)).tuple [⟨11⟩, .i8]
      (by decide)).record [(⟨3⟩, ⟨12⟩), (⟨2⟩, .i8)] (by decide)).record
        [(⟨3⟩, ⟨12⟩), (⟨4⟩, .bool)] (by decide) |>.join ⟨13⟩ ⟨14⟩ (by decide) (by decide)
  obtain ⟨-, -, hrecords, -, -, hnominal⟩ := representation_invariant hpool
  exact ⟨by decide +kernel, (hrecords ⟨15⟩ _ (by decide +kernel)).2,
    (hnominal ⟨15⟩).mp (by decide +kernel)⟩

end Pool

end OrPattern
