import Mathlib.Data.Set.Function
import OrPattern.Proofs.Order.Chain

namespace OrPattern

/-- The form with other numbers for its parts. -/
def Form.rename (rename : Ty → Ty) : Form → Form
  | .tuple elements => .tuple (elements.map rename)
  | .record fields => .record (fields.map fun field => (field.1, rename field.2))
  | .classDecl name parent => .classDecl name (parent.map rename)
  | .enumDecl name parent variants =>
    .enumDecl name (parent.map rename) (variants.map fun variant => (variant.1, rename variant.2))
  | form => form

namespace Form

variable {form : Form} {rename other : Ty → Ty}

theorem isNominal_rename : (form.rename rename).isNominal = form.isNominal := by
  cases form <;> rfl

theorem parent?_rename : (form.rename rename).parent? = form.parent?.map rename := by
  cases form <;> rfl

theorem mentions_rename : (form.rename rename).mentions = form.mentions.map rename := by
  cases form with
  | classDecl _ parent => cases parent <;> simp [Form.rename, mentions]
  | enumDecl _ parent _ => cases parent <;> simp [Form.rename, mentions, Function.comp_def]
  | _ => simp [Form.rename, mentions]

theorem rename_congr (hagree : ∀ part ∈ form.mentions, rename part = other part) :
    form.rename rename = form.rename other := by
  cases form with
  | tuple elements => exact congrArg Form.tuple (List.map_congr_left hagree)
  | record fields =>
    refine congrArg Form.record (List.map_congr_left fun field hfield => ?_)
    rw [hagree field.2 (List.mem_map.mpr ⟨field, hfield, rfl⟩)]
  | classDecl name parent =>
    cases parent with
    | none => rfl
    | some parent => simp [Form.rename, hagree parent List.mem_cons_self]
  | enumDecl name parent variants =>
    have hvariants : (variants.map fun variant => (variant.1, rename variant.2)) =
        variants.map fun variant => (variant.1, other variant.2) := by
      refine List.map_congr_left fun variant hvariant => ?_
      rw [hagree variant.2 (List.mem_append_right _ (List.mem_map.mpr ⟨variant, hvariant, rfl⟩))]
    cases parent with
    | none => simp [Form.rename, hvariants]
    | some parent => simp [Form.rename, hvariants, hagree parent List.mem_cons_self]
  | _ => rfl

theorem rename_of_fixed (hfixed : ∀ part ∈ form.mentions, rename part = part) :
    form.rename rename = form := by
  refine (@rename_congr form rename id hfixed).trans ?_
  cases form <;> simp [Form.rename]

theorem rename_rename : (form.rename rename).rename other = form.rename (other ∘ rename) := by
  cases form <;> simp [Form.rename]

/-- New numbers that tell the parts apart tell the forms apart. -/
theorem eq_of_rename_eq {known : Set Ty} (hinjective : known.InjOn rename) {found : Form}
    (hform : ∀ part ∈ form.mentions, part ∈ known) (hfound : ∀ part ∈ found.mentions, part ∈ known)
    (heq : form.rename rename = found.rename rename) : form = found := by
  have : Nonempty Ty := ⟨.never⟩
  have hback : known.LeftInvOn (Function.invFunOn rename known) rename :=
    hinjective.leftInvOn_invFunOn
  have hundo : ∀ original : Form, (∀ part ∈ original.mentions, part ∈ known) →
      (original.rename rename).rename (Function.invFunOn rename known) = original :=
    fun original hknown => rename_rename.trans
      (rename_of_fixed fun part hpart => hback (hknown part hpart))
  rw [← hundo form hform, heq, hundo found hfound]

end Form

namespace Pool

/-- Every type of the first pool with a number below the bound stands in the
    second under its new number. -/
def RenamedTo (pool later : Pool) (rename : Ty → Ty) (bound : Nat) : Prop :=
  ∀ {type : Ty} {form : Form}, type.index < bound → pool.form? type = some form →
    later.form? (rename type) = some (form.rename rename)

/-- The types that the pool holds below the bound. -/
def holdsBelow (pool : Pool) (bound : Nat) : Set Ty :=
  {type | type.index < bound ∧ pool.contains type}

variable {pool one other later : Pool} {rename : Ty → Ty} {bound : Nat}

theorem RenamedTo.form? (hrenamed : pool.RenamedTo later rename pool.size) {type : Ty}
    {form : Form} (hform : pool.form? type = some form) :
    later.form? (rename type) = some (form.rename rename) :=
  hrenamed (contains_iff.mp (contains_of_form? hform)) hform

/-- A form of known parts may be entered under the new numbers. -/
theorem RenamedTo.admits (hpool : pool.WellFormed) (hrenamed : pool.RenamedTo later rename bound)
    {type : Ty} {form : Form} (hform : pool.form? type = some form) (htype : type.index ≤ bound) :
    later.Admits (form.rename rename) := by
  have hpart : ∀ part ∈ form.mentions, part.index < bound := fun part hmem =>
    Nat.lt_of_lt_of_le (hpool.older hform part hmem) htype
  constructor
  case known =>
    intro part hmem
    rw [Form.mentions_rename] at hmem
    obtain ⟨old, hold, rfl⟩ := List.mem_map.mp hmem
    obtain ⟨oldForm, holdForm⟩ := exists_form?_of_contains (hpool.contains_of_mem_mentions hform hold)
    exact contains_of_form? (hrenamed (hpart old hold) holdForm)
  case nominalParent =>
    intro parent hparent
    rw [Form.parent?_rename] at hparent
    obtain ⟨old, hold, rfl⟩ := Option.map_eq_some_iff.mp hparent
    obtain ⟨oldForm, holdForm, hnominal⟩ := isNominal_iff.mp (hpool.nominalParent hform hold)
    refine isNominal_iff.mpr ⟨oldForm.rename rename, ?_, ?_⟩
    · exact hrenamed (hpart old (Form.mem_mentions_of_parent? hold)) holdForm
    · rwa [Form.isNominal_rename]
  case ascending =>
    intro fields hrecord
    cases form with
    | record old =>
      cases hrecord
      exact List.pairwise_map.mpr (hpool.ascending hform)
    | _ => cases hrecord

/-- Any form that is admitted can be entered; a declared one gets a new number. -/
theorem WellFormed.exists_enter (hpool : pool.WellFormed) {form : Form}
    (hadmits : pool.Admits form) :
    ∃ type next, WellFormed next ∧ pool.KeptBy next ∧ next.form? type = some form ∧
      (form.isNominal = true → ¬ pool.contains type) := by
  cases hnominal : form.isNominal with
  | true =>
    refine ⟨_, _, hpool.push hadmits fun hstructural => ?_, keptBy_push pool form,
      form?_push_self pool form, fun _ hknown => ?_⟩
    · rw [hnominal] at hstructural
      cases hstructural
    · exact Nat.lt_irrefl _ (contains_iff.mp hknown)
  | false =>
    exact ⟨_, _, hpool.intern hadmits, keptBy_intern pool form, form?_intern pool form, nofun⟩

/-- A form that is not there below the bound gets a number that none of the types
    there has. -/
theorem RenamedTo.rename_ne (hpool : pool.WellFormed) (hrenamed : pool.RenamedTo later rename bound)
    (hinjective : (pool.holdsBelow bound).InjOn rename) {next : Pool} (hkept : later.KeptBy next)
    {number : Ty} {form : Form} (hform : pool.form? ⟨bound⟩ = some form)
    (hnumber : next.form? number = some (form.rename rename))
    (hfresh : form.isNominal = true → ¬ later.contains number) {type : Ty}
    (htype : type ∈ pool.holdsBelow bound) : rename type ≠ number := by
  rintro rfl
  obtain ⟨found, hfound⟩ := exists_form?_of_contains htype.2
  have hold := hrenamed htype.1 hfound
  cases hstructural : form.isNominal with
  | true => exact hfresh hstructural (contains_of_form? hold)
  | false =>
    have hsame : form.rename rename = found.rename rename :=
      Option.some.inj (hnumber.symm.trans (hkept.form? hold))
    have hparts : ∀ {owner : Ty} {whole : Form}, pool.form? owner = some whole →
        owner.index ≤ bound → ∀ part ∈ whole.mentions, part ∈ pool.holdsBelow bound :=
      fun hwhole howner part hpart => ⟨Nat.lt_of_lt_of_le (hpool.older hwhole part hpart) howner,
        hpool.contains_of_mem_mentions hwhole hpart⟩
    obtain rfl := Form.eq_of_rename_eq hinjective (hparts hform (Nat.le_refl _))
      (hparts hfound (Nat.le_of_lt htype.1)) hsame
    obtain rfl := hpool.unique hfound hform hstructural
    exact Nat.lt_irrefl _ htype.1

theorem index_lt_of_ne {type : Ty} (hlt : type.index < bound + 1) (hne : type ≠ ⟨bound⟩) :
    type.index < bound := by
  have : type.index ≠ bound := fun h => hne (by cases type; exact congrArg Ty.mk h)
  omega

section Update

variable {next : Pool} {number : Ty} {form : Form} (hpool : pool.WellFormed)
  (hrenamed : pool.RenamedTo later rename bound) (hkept : later.KeptBy next)
  (hform : pool.form? ⟨bound⟩ = some form) (hnumber : next.form? number = some (form.rename rename))
include hpool hrenamed hkept hform hnumber

theorem RenamedTo.update :
    pool.RenamedTo next (Function.update rename ⟨bound⟩ number) (bound + 1) := by
  intro type found hlt htype
  have hparts : found.rename (Function.update rename ⟨bound⟩ number) = found.rename rename := by
    refine Form.rename_congr fun part hpart => Function.update_of_ne ?_ ..
    rintro rfl
    have hlate : bound < type.index := hpool.older htype ⟨bound⟩ hpart
    omega
  rw [hparts]
  by_cases heq : type = ⟨bound⟩
  · subst heq
    cases hform.symm.trans htype
    rwa [Function.update_self]
  · rw [Function.update_of_ne heq]
    exact hkept.form? (hrenamed (index_lt_of_ne hlt heq) htype)

theorem RenamedTo.injOn_update (hinjective : (pool.holdsBelow bound).InjOn rename)
    (hfresh : form.isNominal = true → ¬ later.contains number) :
    (pool.holdsBelow (bound + 1)).InjOn (Function.update rename ⟨bound⟩ number) := by
  have hother : ∀ {type : Ty}, type ∈ pool.holdsBelow (bound + 1) → type ≠ ⟨bound⟩ →
      type ∈ pool.holdsBelow bound := fun htype hne => ⟨index_lt_of_ne htype.1 hne, htype.2⟩
  have hapart : ∀ {type : Ty}, type ∈ pool.holdsBelow (bound + 1) → type ≠ ⟨bound⟩ →
      rename type ≠ number := fun htype hne =>
    hrenamed.rename_ne hpool hinjective hkept hform hnumber hfresh (hother htype hne)
  intro a ha b hb heq
  by_cases hbound : a = ⟨bound⟩ <;> by_cases hbound' : b = ⟨bound⟩
  · exact hbound.trans hbound'.symm
  · rw [hbound, Function.update_self, Function.update_of_ne hbound'] at heq
    exact absurd heq.symm (hapart hb hbound')
  · rw [hbound', Function.update_self, Function.update_of_ne hbound] at heq
    exact absurd heq (hapart ha hbound)
  · rw [Function.update_of_ne hbound, Function.update_of_ne hbound'] at heq
    exact hinjective (hother ha hbound) (hother hb hbound') heq

end Update

/-- One more type can be given a new number. -/
theorem RenamedTo.extend (hpool : pool.WellFormed) (hlater : later.WellFormed)
    (hrenamed : pool.RenamedTo later rename bound)
    (hinjective : (pool.holdsBelow bound).InjOn rename) :
    ∃ next extended, WellFormed next ∧ later.KeptBy next ∧
      (∀ type : Ty, type.index < bound → extended type = rename type) ∧
      pool.RenamedTo next extended (bound + 1) ∧
      (pool.holdsBelow (bound + 1)).InjOn extended := by
  cases hform : pool.form? ⟨bound⟩ with
  | none =>
    have hold : ∀ {type : Ty}, type.index < bound + 1 → pool.contains type →
        type.index < bound := by
      intro type hlt hknown
      refine index_lt_of_ne hlt ?_
      rintro rfl
      obtain ⟨form, hfound⟩ := exists_form?_of_contains hknown
      cases hform.symm.trans hfound
    refine ⟨later, rename, hlater, KeptBy.refl later, fun _ _ => rfl,
      fun {type} {form} hlt htype => ?_,
      fun a ha b hb => hinjective ⟨hold ha.1 ha.2, ha.2⟩ ⟨hold hb.1 hb.2, hb.2⟩⟩
    exact hrenamed (hold hlt (contains_of_form? htype)) htype
  | some form =>
    obtain ⟨number, next, hnext, hkept, hnumber, hfresh⟩ :=
      hlater.exists_enter (hrenamed.admits hpool hform (Nat.le_refl _))
    rw [Form.isNominal_rename] at hfresh
    refine ⟨next, Function.update rename ⟨bound⟩ number, hnext, hkept,
      fun type hlt => Function.update_of_ne ?_ ..,
      hrenamed.update hpool hkept hform hnumber,
      hrenamed.injOn_update hpool hkept hform hnumber hinjective hfresh⟩
    rintro rfl
    exact Nat.lt_irrefl _ hlt

/-- Two pools that grew out of one have a common extension: one in which the
    second stands as it is, and the first under new numbers for what is new in
    it. -/
theorem exists_renaming (hone : one.WellFormed) (hother : other.WellFormed)
    (hkept : pool.KeptBy one) (hkept' : pool.KeptBy other) :
    ∃ later rename, WellFormed later ∧ other.KeptBy later ∧
      (∀ type, pool.contains type → rename type = type) ∧
      one.RenamedTo later rename one.size ∧ (one.holdsBelow one.size).InjOn rename := by
  suffices h : ∀ extra, ∃ later rename, WellFormed later ∧ other.KeptBy later ∧
      (∀ type, pool.contains type → rename type = type) ∧
      one.RenamedTo later rename (pool.size + extra) ∧
      (one.holdsBelow (pool.size + extra)).InjOn rename by
    obtain ⟨later, rename, hlater, hold, hfixed, hrenamed, hinjective⟩ := h one.size
    have hbound : one.size ≤ pool.size + one.size := Nat.le_add_left _ _
    have hbelow : one.holdsBelow one.size ⊆ one.holdsBelow (pool.size + one.size) :=
      fun type htype => ⟨Nat.lt_of_lt_of_le htype.1 hbound, htype.2⟩
    exact ⟨later, rename, hlater, hold, hfixed, fun hlt => hrenamed (Nat.lt_of_lt_of_le hlt hbound),
      hinjective.mono hbelow⟩
  intro extra
  induction extra with
  | zero =>
    refine ⟨other, id, hother, KeptBy.refl other, fun _ _ => rfl, fun {type} {form} hlt hform => ?_,
      Function.injective_id.injOn⟩
    rw [hkept.form?_eq (contains_iff.mpr hlt)] at hform
    rw [@Form.rename_of_fixed form id fun _ _ => rfl]
    exact hkept'.form? hform
  | succ extra ih =>
    obtain ⟨later, rename, hlater, hold, hfixed, hrenamed, hinjective⟩ := ih
    obtain ⟨next, extended, hnext, hlast, hagree, hextended⟩ :=
      hrenamed.extend hone hlater hinjective
    refine ⟨next, extended, hnext, hold.trans hlast, fun type htype => ?_, hextended⟩
    have := contains_iff.mp htype
    rw [hagree type (by omega), hfixed type htype]

end Pool

end OrPattern
