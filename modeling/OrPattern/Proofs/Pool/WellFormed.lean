import OrPattern.Ty.Growth

namespace OrPattern

/-- The types that an entry with this form refers to. -/
def Form.mentions : Form → List Ty
  | .tuple elements => elements
  | .record fields => fields.map Prod.snd
  | .classDecl _ parent => parent.toList
  | .enumDecl _ parent variants => parent.toList ++ variants.map Prod.snd
  | _ => []

theorem Form.mem_mentions_of_mem_components {form : Form} {part : Ty}
    (hpart : part ∈ form.components) : part ∈ form.mentions := by
  cases form <;> simp_all [components, mentions]

theorem Form.mem_mentions_of_parent? {form : Form} {parent : Ty}
    (hparent : form.parent? = some parent) : parent ∈ form.mentions := by
  cases form <;> simp_all [parent?, mentions]

/-- The flags of a form depend on those of its components only. -/
theorem Flags.ofForm_congr {f g : Ty → Flags} {form : Form}
    (hagree : ∀ part ∈ form.components, f part = g part) : ofForm f form = ofForm g form := by
  cases form with
  | tuple elements =>
    have hmap : elements.map f = elements.map g := List.map_congr_left hagree
    cases elements with
    | nil => rfl
    | cons first rest => simp only [ofForm, hmap]
  | record fields =>
    have hmap : (fields.map fun field => f field.2) = fields.map fun field => g field.2 :=
      List.map_congr_left fun field hfield =>
        hagree field.2 (List.mem_map.mpr ⟨field, hfield, rfl⟩)
    simp only [ofForm, hmap]
  | _ => rfl

namespace Pool

theorem contains_iff {pool : Pool} {type : Ty} : pool.contains type ↔ type.index < pool.size :=
  decide_eq_true_iff

theorem form?_isSome_iff {pool : Pool} {type : Ty} :
    (pool.form? type).isSome ↔ pool.contains type := by
  simp [contains_iff, form?, size]

theorem contains_of_form? {pool : Pool} {type : Ty} {form : Form}
    (hform : pool.form? type = some form) : pool.contains type := by
  rw [← form?_isSome_iff, hform]
  rfl

theorem exists_form?_of_contains {pool : Pool} {type : Ty} (hknown : pool.contains type) :
    ∃ form, pool.form? type = some form :=
  Option.isSome_iff_exists.mp (form?_isSome_iff.mpr hknown)

theorem flags_eq_empty_of_form? {pool : Pool} {type : Ty} (hform : pool.form? type = none) :
    pool.flags type = {} := by
  rw [flags, Option.map_eq_none_iff.mp hform]
  rfl

theorem isNominal_iff {pool : Pool} {type : Ty} :
    pool.isNominal type ↔ ∃ form, pool.form? type = some form ∧ form.isNominal := by
  simp [isNominal, Option.any_eq_true]

/-- Forms that are not declared are held once. -/
def Unique (pool : Pool) : Prop :=
  ∀ ⦃a b : Ty⦄ ⦃form : Form⦄, pool.form? a = some form → pool.form? b = some form →
    form.isNominal = false → a = b

/-- What every pool satisfies that is built from known types only: parts are
    older than the whole, tuples and records are entered once, record fields
    ascend, and the flags are those of the form. -/
structure WellFormed (pool : Pool) : Prop where
  primitives : ∀ {index : Nat} {form : Form}, primitiveForms[index]? = some form →
    pool.form? ⟨index⟩ = some form
  older : ∀ {type : Ty} {form : Form}, pool.form? type = some form →
    ∀ part ∈ form.mentions, part.index < type.index
  nominalParent : ∀ {type : Ty} {form : Form}, pool.form? type = some form →
    ∀ {parent : Ty}, form.parent? = some parent → pool.isNominal parent
  ascending : ∀ {type : Ty} {fields : List (Name × Ty)},
    pool.form? type = some (.record fields) → AscendingByName Prod.fst fields
  unique : pool.Unique
  flagsOf : ∀ {type : Ty} {form : Form}, pool.form? type = some form →
    pool.flags type = Flags.ofForm pool.flags form

/-- A form that may be entered: its parts are known, a parent is declared, and
    record fields ascend. -/
structure Admits (pool : Pool) (form : Form) : Prop where
  known : ∀ part ∈ form.mentions, pool.contains part
  nominalParent : ∀ {parent : Ty}, form.parent? = some parent → pool.isNominal parent
  ascending : ∀ {fields : List (Name × Ty)}, form = .record fields →
    AscendingByName Prod.fst fields

/-- Every entry of the first pool stands in the second under the same number. -/
def KeptBy (pool later : Pool) : Prop :=
  ∀ ⦃index : Nat⦄ ⦃entry : PoolEntry⦄,
    pool.entries[index]? = some entry → later.entries[index]? = some entry

namespace KeptBy

theorem refl (pool : Pool) : pool.KeptBy pool := fun _ _ hentry => hentry

theorem trans {a b c : Pool} (hab : a.KeptBy b) (hbc : b.KeptBy c) : a.KeptBy c :=
  fun _ _ hentry => hbc (hab hentry)

variable {pool later : Pool} {type : Ty}

theorem form? (hkept : pool.KeptBy later) {form : Form} (hform : pool.form? type = some form) :
    later.form? type = some form := by
  obtain ⟨entry, hentry, rfl⟩ := Option.map_eq_some_iff.mp hform
  simp [Pool.form?, hkept hentry]

theorem contains (hkept : pool.KeptBy later) (hknown : pool.contains type) :
    later.contains type := by
  obtain ⟨form, hform⟩ := exists_form?_of_contains hknown
  exact contains_of_form? (hkept.form? hform)

theorem form?_eq (hkept : pool.KeptBy later) (hknown : pool.contains type) :
    later.form? type = pool.form? type := by
  obtain ⟨form, hform⟩ := exists_form?_of_contains hknown
  rw [hform, hkept.form? hform]

theorem parent?_eq (hkept : pool.KeptBy later) (hknown : pool.contains type) :
    later.parent? type = pool.parent? type := by
  simp only [parent?, hkept.form?_eq hknown]

theorem isNominal (hkept : pool.KeptBy later) (hnominal : pool.isNominal type) :
    later.isNominal type := by
  obtain ⟨form, hform, hdeclared⟩ := isNominal_iff.mp hnominal
  exact isNominal_iff.mpr ⟨form, hkept.form? hform, hdeclared⟩

end KeptBy

theorem keptBy_push (pool : Pool) (form : Form) : pool.KeptBy (pool.push form).2 := by
  intro index entry hentry
  have hlt : index < pool.entries.size := (Array.getElem?_eq_some_iff.mp hentry).choose
  simpa only [push, Array.getElem?_push_lt hlt, Array.getElem?_eq_getElem hlt] using hentry

/-- An entry of an enlarged pool is an old one or the new one. -/
theorem form?_push_eq_some {pool : Pool} {form found : Form} {type : Ty}
    (hfound : (pool.push form).2.form? type = some found) :
    pool.form? type = some found ∨ type = ⟨pool.size⟩ ∧ found = form := by
  have hlt : type.index < pool.size + 1 := by
    simpa only [size_push] using contains_iff.mp (contains_of_form? hfound)
  by_cases hold : type.index < pool.size
  · rw [form?_push_of_contains (contains_iff.mpr hold)] at hfound
    exact .inl hfound
  · have htype : type = (pool.push form).1 := by
      cases type
      simp only [push, Ty.mk.injEq]
      simp only at hlt hold
      omega
    rw [htype, form?_push_self] at hfound
    exact .inr ⟨htype, (Option.some.inj hfound).symm⟩

theorem Unique.push {pool : Pool} {form : Form} (hunique : pool.Unique)
    (hfresh : form.isNominal = false → ∀ type, pool.form? type ≠ some form) :
    (pool.push form).2.Unique := by
  intro a b found ha hb hstructural
  rcases form?_push_eq_some ha with hold | ⟨rfl, rfl⟩ <;>
    rcases form?_push_eq_some hb with hold' | ⟨rfl, hform⟩
  · exact hunique hold hold' hstructural
  · subst hform
    exact absurd hold (hfresh hstructural a)
  · exact absurd hold' (hfresh hstructural b)
  · rfl

namespace WellFormed

variable {pool : Pool} {form : Form}

/-- Entering a form that is admitted and not there yet keeps a pool well formed;
    only declared types may be entered again. -/
theorem push (hpool : pool.WellFormed) (hadmits : pool.Admits form)
    (hfresh : form.isNominal = false → ∀ type, pool.form? type ≠ some form) :
    (pool.push form).2.WellFormed where
  primitives hprimitive := (keptBy_push pool form).form? (hpool.primitives hprimitive)
  older := by
    intro type found hfound part hpart
    rcases form?_push_eq_some hfound with hold | ⟨rfl, rfl⟩
    · exact hpool.older hold part hpart
    · exact contains_iff.mp (hadmits.known part hpart)
  nominalParent := by
    intro type found hfound parent hparent
    rcases form?_push_eq_some hfound with hold | ⟨-, rfl⟩
    · exact (keptBy_push pool form).isNominal (hpool.nominalParent hold hparent)
    · exact (keptBy_push pool found).isNominal (hadmits.nominalParent hparent)
  ascending := by
    intro type fields hfound
    rcases form?_push_eq_some hfound with hold | ⟨-, hform⟩
    · exact hpool.ascending hold
    · exact hadmits.ascending hform.symm
  unique := hpool.unique.push hfresh
  flagsOf := by
    intro type found hfound
    have hcongr : ∀ {known : Form}, (∀ part ∈ known.mentions, pool.contains part) →
        Flags.ofForm (pool.push form).2.flags known = Flags.ofForm pool.flags known :=
      fun hknown => Flags.ofForm_congr fun part hpart =>
        flags_push_of_contains (hknown part (Form.mem_mentions_of_mem_components hpart)) form
    rcases form?_push_eq_some hfound with hold | ⟨rfl, rfl⟩
    · have hlt := contains_iff.mp (contains_of_form? hold)
      rw [flags_push_of_contains (contains_of_form? hold), hpool.flagsOf hold, hcongr]
      exact fun part hpart => contains_iff.mpr (Nat.lt_trans (hpool.older hold part hpart) hlt)
    · rw [hcongr hadmits.known]
      simp [Pool.push, flags, size]

theorem contains_of_mem_mentions (hpool : pool.WellFormed) {type part : Ty}
    (hform : pool.form? type = some form) (hpart : part ∈ form.mentions) : pool.contains part :=
  contains_iff.mpr
    (Nat.lt_trans (hpool.older hform part hpart) (contains_iff.mp (contains_of_form? hform)))

end WellFormed

/-- Entering a form that may be there already leaves the pool as it is, or enters
    it as a new one. -/
theorem intern_cases (pool : Pool) (form : Form) :
    (pool.intern form).2 = pool ∨
      pool.intern form = pool.push form ∧ ∀ type, pool.form? type ≠ some form := by
  unfold intern
  split
  · exact .inl rfl
  · next hnone =>
    refine .inr ⟨rfl, fun type htype => ?_⟩
    obtain ⟨entry, hentry, hform⟩ := Option.map_eq_some_iff.mp htype
    have hmem : entry ∈ pool.entries.toList := Array.mem_def.mp (Array.mem_of_getElem? hentry)
    simpa [hform] using List.findIdx?_eq_none_iff.mp hnone entry hmem

theorem WellFormed.intern {pool : Pool} {form : Form} (hpool : pool.WellFormed)
    (hadmits : pool.Admits form) : (pool.intern form).2.WellFormed := by
  rcases intern_cases pool form with hsame | ⟨hpush, hfresh⟩
  · rwa [hsame]
  · rw [hpush]
    exact hpool.push hadmits fun _ => hfresh

theorem Unique.intern {pool : Pool} (hunique : pool.Unique) (form : Form) :
    (pool.intern form).2.Unique := by
  rcases intern_cases pool form with hsame | ⟨hpush, hfresh⟩
  · rwa [hsame]
  · rw [hpush]
    exact hunique.push fun _ => hfresh

theorem keptBy_intern (pool : Pool) (form : Form) : pool.KeptBy (pool.intern form).2 := by
  rcases intern_cases pool form with hsame | ⟨hpush, -⟩
  · rw [hsame]
    exact KeptBy.refl pool
  · rw [hpush]
    exact keptBy_push pool form

/-- Nothing is entered but the form. -/
theorem form?_intern_eq_some {pool : Pool} {form found : Form} {type : Ty}
    (hfound : (pool.intern form).2.form? type = some found) :
    pool.form? type = some found ∨ type = (pool.intern form).1 ∧ found = form := by
  rcases intern_cases pool form with hsame | ⟨hpush, -⟩
  · rw [hsame] at hfound
    exact .inl hfound
  · rw [hpush] at hfound ⊢
    exact form?_push_eq_some hfound

theorem form?_initial (type : Ty) : initial.form? type = primitiveForms[type.index]? := by
  have hentries : initial.entries.toList.map PoolEntry.form = primitiveForms := by decide
  rw [← hentries, List.getElem?_map, form?, Array.getElem?_toList]

/-- No primitive type is made of others. -/
theorem wellFormed_initial : initial.WellFormed := by
  have hprimitive : ∀ {type : Ty} {form : Form}, initial.form? type = some form →
      form ∈ primitiveForms := fun hform =>
    List.mem_of_getElem? (form?_initial _ ▸ hform)
  have hatomic : ∀ form ∈ primitiveForms, form.mentions = [] ∧ form.parent? = none := by decide
  constructor
  case primitives => exact fun hform => (form?_initial _).trans hform
  case older =>
    intro type form hform part hpart
    rw [(hatomic form (hprimitive hform)).1] at hpart
    exact absurd hpart List.not_mem_nil
  case nominalParent =>
    intro type form hform parent hparent
    rw [(hatomic form (hprimitive hform)).2] at hparent
    cases hparent
  case ascending =>
    intro type fields hform
    have := hprimitive hform
    simp [primitiveForms] at this
  case unique =>
    intro a b form ha hb _
    rw [form?_initial] at ha hb
    obtain ⟨hlt, -⟩ := List.getElem?_eq_some_iff.mp ha
    have hnodup : primitiveForms.Nodup := by decide
    have := (List.getElem?_inj hlt hnodup).mp (ha.trans hb.symm)
    cases a; cases b; simp_all
  case flagsOf =>
    intro type form hform
    have hlt : type.index < primitiveForms.length := by
      rw [form?_initial] at hform
      exact (List.getElem?_eq_some_iff.mp hform).choose
    have hall : ∀ index < primitiveForms.length, ∀ form ∈ primitiveForms[index]?,
        initial.flags ⟨index⟩ = Flags.ofForm initial.flags form := by decide
    exact hall type.index hlt form (form?_initial type ▸ hform)

end Pool

end OrPattern
