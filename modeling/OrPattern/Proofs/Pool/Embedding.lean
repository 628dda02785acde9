import Mathlib.Data.Fintype.EquivFin
import OrPattern.Proofs.Order.Growth
import OrPattern.Ty.View

namespace OrPattern

namespace Pool

/-- What the first pool holds the second one holds too, under new numbers. -/
structure Embeds (pool other : Pool) (rename : Ty → Ty) : Prop where
  injective : Function.Injective rename
  renamed : ∀ {type : Ty} {form : Form}, pool.form? type = some form →
    other.form? (rename type) = some (form.rename rename)

variable {pool other later one : Pool} {rename : Ty → Ty} {a b type : Ty}

theorem KeptBy.embeds (hkept : pool.KeptBy later) : pool.Embeds later id where
  injective := Function.injective_id
  renamed {_ form} hform := by
    rw [@Form.rename_of_fixed form id fun _ _ => rfl]
    exact hkept.form? hform

/-- So it does under numbers that are new for other types only. -/
theorem KeptBy.embeds_of_fixed (hpool : pool.WellFormed) (hkept : pool.KeptBy later)
    (hinjective : Function.Injective rename)
    (hfixed : ∀ type, pool.contains type → rename type = type) : pool.Embeds later rename where
  injective := hinjective
  renamed {type form} hform := by
    have hsame : form.rename rename = form := Form.rename_of_fixed fun part hpart =>
      hfixed part (hpool.contains_of_mem_mentions hform hpart)
    rw [hsame, hfixed type (contains_of_form? hform)]
    exact hkept.form? hform

/-- A pool that holds no more types than one that it keeps is that pool. -/
theorem KeptBy.eq_of_contains (hkept : pool.KeptBy later)
    (hold : ∀ type, later.contains type → pool.contains type) : later = pool := by
  refine congrArg Pool.mk (Array.ext_getElem? fun index => ?_)
  cases hentry : pool.entries[index]? with
  | some entry => exact hkept hentry
  | none =>
    have hbeyond := Array.getElem?_eq_none_iff.mp hentry
    refine Array.getElem?_eq_none (Nat.le_of_not_lt fun hlt => ?_)
    exact absurd (contains_iff.mp (hold ⟨index⟩ (contains_iff.mpr hlt))) (Nat.not_lt.mpr hbeyond)

namespace Embeds

theorem of_kept (hkept : pool.KeptBy later) (hembeds : later.Embeds other rename) :
    pool.Embeds other rename :=
  ⟨hembeds.injective, fun hform => hembeds.renamed (hkept.form? hform)⟩

variable (hembeds : pool.Embeds other rename)
include hembeds

theorem renamedTo : pool.RenamedTo other rename pool.size := fun _ hform => hembeds.renamed hform

theorem contains (hknown : pool.contains type) : other.contains (rename type) := by
  obtain ⟨form, hform⟩ := exists_form?_of_contains hknown
  exact contains_of_form? (hembeds.renamed hform)

theorem exists_numbers : ∃ number : Fin pool.size → Fin other.size,
    Function.Injective number ∧ ∀ index : Fin pool.size, rename ⟨index⟩ = ⟨number index⟩ := by
  have hlt : ∀ index : Fin pool.size, (rename ⟨index⟩).index < other.size := fun index =>
    contains_iff.mp (hembeds.contains (contains_iff.mpr index.isLt))
  refine ⟨fun index => ⟨(rename ⟨index⟩).index, hlt index⟩, fun one two heq => ?_, fun _ => rfl⟩
  have hsame : rename ⟨one⟩ = rename ⟨two⟩ := congrArg Ty.mk (Fin.mk.inj heq)
  exact Fin.ext (Ty.mk.inj (hembeds.injective hsame))

/-- A pool has room for those that are embedded in it. -/
theorem size_le : pool.size ≤ other.size := by
  obtain ⟨number, hinjective, -⟩ := hembeds.exists_numbers
  simpa using Fintype.card_le_of_injective number hinjective

/-- A pool of the same size holds nothing but what is embedded in it. -/
theorem exists_origin (hsize : pool.size = other.size) (htype : other.contains type) :
    ∃ origin, pool.contains origin ∧ rename origin = type := by
  obtain ⟨number, hinjective, hnumber⟩ := hembeds.exists_numbers
  have hbijective := (Fintype.bijective_iff_injective_and_card number).mpr
    ⟨hinjective, by simpa using hsize⟩
  obtain ⟨index, hindex⟩ := hbijective.surjective ⟨type.index, contains_iff.mp htype⟩
  refine ⟨⟨index⟩, contains_iff.mpr index.isLt, ?_⟩
  rw [hnumber, hindex]

variable (hknown : pool.contains type)

section
include hknown

theorem form?_eq : other.form? (rename type) = (pool.form? type).map (Form.rename rename) := by
  obtain ⟨form, hform⟩ := exists_form?_of_contains hknown
  rw [hform, hembeds.renamed hform, Option.map_some]

theorem parent?_eq : other.parent? (rename type) = (pool.parent? type).map rename := by
  obtain ⟨form, hform⟩ := exists_form?_of_contains hknown
  simp only [parent?, hembeds.form?_eq hknown, hform, Option.map_some, Option.bind_some,
    Form.parent?_rename]

theorem variants?_eq : other.variants? (rename type) =
    (pool.variants? type).map (List.map fun variant => (variant.1, rename variant.2)) := by
  obtain ⟨form, hform⟩ := exists_form?_of_contains hknown
  simp only [variants?, hembeds.form?_eq hknown, hform, Option.map_some]
  cases form <;> rfl

theorem elements?_eq :
    other.elements? (rename type) = (pool.elements? type).map (List.map rename) := by
  obtain ⟨form, hform⟩ := exists_form?_of_contains hknown
  simp only [elements?, hembeds.form?_eq hknown, hform, Option.map_some]
  cases form <;> rfl

theorem fields?_eq : other.fields? (rename type) =
    (pool.fields? type).map (List.map fun field => (field.1, rename field.2)) := by
  obtain ⟨form, hform⟩ := exists_form?_of_contains hknown
  simp only [fields?, hembeds.form?_eq hknown, hform, Option.map_some]
  cases form <;> rfl

theorem literalFits_eq (literal : Literal) :
    other.literalFits (rename type) literal = pool.literalFits type literal := by
  obtain ⟨form, hform⟩ := exists_form?_of_contains hknown
  simp only [literalFits, hembeds.form?_eq hknown, hform, Option.map_some]
  cases form <;> rfl

end

variable (hpool : pool.WellFormed) (hother : other.WellFormed)
include hpool hother

/-- The types with fixed numbers keep them. -/
theorem rename_primitive {index : Nat} {form : Form} (hform : primitiveForms[index]? = some form) :
    rename ⟨index⟩ = ⟨index⟩ := by
  have hatomic : ∀ form ∈ primitiveForms, form.mentions = [] ∧ form.isNominal = false := by decide
  obtain ⟨hmentions, hstructural⟩ := hatomic form (List.mem_of_getElem? hform)
  have hsame : form.rename rename = form := by
    refine Form.rename_of_fixed fun part hpart => ?_
    rw [hmentions] at hpart
    exact absurd hpart List.not_mem_nil
  have hrenamed := hembeds.renamed (hpool.primitives hform)
  rw [hsame] at hrenamed
  exact hother.unique hrenamed (hother.primitives hform) hstructural

theorem rename_never : rename .never = .never :=
  @rename_primitive _ _ _ hembeds hpool hother 10 _ rfl

/-- The chain of parents is renamed along with the type. -/
theorem ancestors_eq (hknown : pool.contains type) :
    other.ancestors (rename type) = (pool.ancestors type).map rename := by
  induction hindex : type.index using Nat.strongRecOn generalizing type with
  | _ index ih =>
    have hparent := hembeds.parent?_eq hknown
    cases hroot : pool.parent? type with
    | none =>
      rw [hroot, Option.map_none] at hparent
      rw [ancestors_of_root hroot, ancestors_of_root hparent, List.map_singleton]
    | some parent =>
      rw [hroot, Option.map_some] at hparent
      obtain ⟨form, hform, hdeclared⟩ := exists_form?_of_parent? hroot
      have hold := hpool.contains_of_mem_mentions hform (Form.mem_mentions_of_parent? hdeclared)
      rw [hpool.ancestors_of_parent? hroot, hother.ancestors_of_parent? hparent, List.map_cons,
        ih parent.index (hindex ▸ hpool.parent_older hroot) hold rfl]

/-- The second pool relates no more of the renamed types than the first one relates
    of the types themselves. -/
theorem below_of_renamed (ha : pool.contains a) (hb : pool.contains b)
    (hbelow : other.Below (rename a) (rename b)) : pool.Below a b := by
  have hpart : ∀ {whole part : Ty} {form : Form}, pool.form? whole = some form →
      part ∈ form.components → pool.contains part := fun hform hmem =>
    hpool.contains_of_mem_mentions hform (Form.mem_mentions_of_mem_components hmem)
  have hback : ∀ {whole : Ty} {found : Form}, pool.contains whole →
      other.form? (rename whole) = some found →
      ∃ form, pool.form? whole = some form ∧ form.rename rename = found := fun hwhole hfound =>
    Option.map_eq_some_iff.mp ((hembeds.form?_eq hwhole).symm.trans hfound)
  generalize hlow : rename a = low at hbelow
  generalize hhigh : rename b = high at hbelow
  induction hbelow generalizing a b with
  | refl =>
    obtain rfl := hembeds.injective (hlow.trans hhigh.symm)
    exact .refl a
  | never =>
    obtain rfl := hembeds.injective (hlow.trans (hembeds.rename_never hpool hother).symm)
    exact .never b
  | int subForm supForm wider =>
    obtain ⟨aForm, haForm, heq⟩ := hback ha (hlow ▸ subForm)
    obtain ⟨bForm, hbForm, heq'⟩ := hback hb (hhigh ▸ supForm)
    cases aForm <;> cases heq
    cases bForm <;> cases heq'
    exact .int haForm hbForm wider
  | float subForm supForm wider =>
    obtain ⟨aForm, haForm, heq⟩ := hback ha (hlow ▸ subForm)
    obtain ⟨bForm, hbForm, heq'⟩ := hback hb (hhigh ▸ supForm)
    cases aForm <;> cases heq
    cases bForm <;> cases heq'
    exact .float haForm hbForm wider
  | nominal descends =>
    have hmem := hother.mem_ancestors_iff.mpr (.inr descends)
    rw [← hlow, hembeds.ancestors_eq hpool hother ha] at hmem
    obtain ⟨ancestor, hancestor, heq⟩ := List.mem_map.mp hmem
    obtain rfl := hembeds.injective (heq.trans hhigh.symm)
    rcases hpool.mem_ancestors_iff.mp hancestor with rfl | hdescends
    · exact .refl ancestor
    · exact .nominal hdescends
  | tuple subForm supForm arity nonempty _ ih =>
    obtain ⟨aForm, haForm, heq⟩ := hback ha (hlow ▸ subForm)
    obtain ⟨bForm, hbForm, heq'⟩ := hback hb (hhigh ▸ supForm)
    cases aForm <;> cases heq
    cases bForm <;> cases heq'
    refine .tuple haForm hbForm (by simpa using arity) (by simpa using nonempty) ?_
    intro index x y hx hy
    refine ih index (rename x) (rename y) (by simp [hx]) (by simp [hy])
      (hpart haForm (List.mem_of_getElem? hx)) (hpart hbForm (List.mem_of_getElem? hy)) rfl rfl
  | record pick subForm supForm nonempty present _ ih =>
    obtain ⟨aForm, haForm, heq⟩ := hback ha (hlow ▸ subForm)
    obtain ⟨bForm, hbForm, heq'⟩ := hback hb (hhigh ▸ supForm)
    cases aForm <;> cases heq
    cases bForm <;> cases heq'
    have hfield : ∀ {fields : List (Name × Ty)} {name : Name} {y : Ty}, (name, y) ∈ fields →
        (name, rename y) ∈ fields.map fun field => (field.1, rename field.2) :=
      fun hy => List.mem_map.mpr ⟨_, hy, rfl⟩
    refine hpool.record_below haForm hbForm (by simpa using nonempty) fun name y hy => ?_
    have hy' := hfield hy
    obtain ⟨⟨field, x⟩, hx, hpick⟩ := List.mem_map.mp (present name (rename y) hy')
    obtain ⟨rfl, hpick⟩ := Prod.mk.inj hpick
    exact ⟨x, hx, ih _ (rename y) hy' (hpart haForm (List.mem_map.mpr ⟨_, hx, rfl⟩))
      (hpart hbForm (List.mem_map.mpr ⟨_, hy, rfl⟩)) hpick rfl⟩

/-- The order on renamed types is that on the types themselves. -/
theorem isSubtype_eq (ha : pool.contains a) (hb : pool.contains b) :
    other.isSubtype (rename a) (rename b) = pool.isSubtype a b := by
  rw [Bool.eq_iff_iff, hother.isSubtype_iff, hpool.isSubtype_iff]
  exact ⟨hembeds.below_of_renamed hpool hother ha hb,
    fun hbelow => hbelow.renamed hembeds.renamedTo (hembeds.rename_never hpool hother)⟩

end Embeds

/-- Each type of the first pool is found in the second under its new number, made in
    the same way from the types of the base, which keep their numbers. -/
structure EmbedsOver (base pool other : Pool) (rename : Ty → Ty) : Prop where
  fixed : ∀ type, base.contains type → rename type = type
  embeds : pool.Embeds other rename

/-- Numbers that are not given out go beyond a limit, so that none of them is the
    new number of a type. -/
def renameWithin (pool : Pool) (limit : Nat) (rename : Ty → Ty) (type : Ty) : Ty :=
  if pool.contains type then rename type else ⟨limit + type.index⟩

theorem renameWithin_of_contains {limit : Nat} (hknown : pool.contains type) :
    pool.renameWithin limit rename type = rename type := if_pos hknown

theorem renameWithin_injective {limit : Nat}
    (hlimit : ∀ type, pool.contains type → (rename type).index < limit)
    (hinjective : ∀ a b, pool.contains a → pool.contains b → rename a = rename b → a = b) :
    Function.Injective (pool.renameWithin limit rename) := by
  intro a b heq
  unfold renameWithin at heq
  split at heq
  · next ha =>
    split at heq
    · next hb => exact hinjective a b ha hb heq
    · have hlt := hlimit a ha
      rw [heq] at hlt
      exact absurd hlt (Nat.not_lt.mpr (Nat.le_add_right _ _))
  · split at heq
    · next hb =>
      have hlt := hlimit b hb
      rw [← heq] at hlt
      exact absurd hlt (Nat.not_lt.mpr (Nat.le_add_right _ _))
    · cases a
      cases b
      exact congrArg Ty.mk (Nat.add_left_cancel (Ty.mk.inj heq))

/-- Two pools that grew out of one have a common extension: one in which the
    second stands as it is, and the first is embedded with the numbers of the
    types that they share. -/
theorem exists_embedsOver (hone : one.WellFormed) (hother : other.WellFormed)
    (hkept : pool.KeptBy one) (hkept' : pool.KeptBy other) :
    ∃ later rename, WellFormed later ∧ other.KeptBy later ∧ EmbedsOver pool one later rename := by
  obtain ⟨later, found, hlater, hold, hfixed, hrenamed, hinjective⟩ :=
    exists_renaming hone hother hkept hkept'
  have hlimit : ∀ type, one.contains type → (found type).index < later.size := by
    intro type hknown
    obtain ⟨form, hform⟩ := exists_form?_of_contains hknown
    exact contains_iff.mp (contains_of_form? (hrenamed.form? hform))
  refine ⟨later, one.renameWithin later.size found, hlater, hold, ⟨fun type htype => ?_,
    renameWithin_injective hlimit fun a b ha hb => ?_, fun {type form} hform => ?_⟩⟩
  · rw [renameWithin_of_contains (hkept.contains htype), hfixed type htype]
  · exact fun heq => hinjective ⟨contains_iff.mp ha, ha⟩ ⟨contains_iff.mp hb, hb⟩ heq
  · have hparts : form.rename (one.renameWithin later.size found) = form.rename found :=
      Form.rename_congr fun part hpart =>
        renameWithin_of_contains (hone.contains_of_mem_mentions hform hpart)
    rw [renameWithin_of_contains (contains_of_form? hform), hparts]
    exact hrenamed.form? hform

end Pool

end OrPattern
