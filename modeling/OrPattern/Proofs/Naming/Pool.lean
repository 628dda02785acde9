import OrPattern.Proofs.Naming.Data
import OrPattern.Proofs.Naming.Sorted
import OrPattern.Proofs.Order.Decision
import OrPattern.Ty.View

namespace OrPattern

open HasNames (withNames)

variable {names : Name → Name} (hnames : Function.Injective names)

section Fields

variable {fields others : List (Name × Ty)}

theorem withNames_injective (hnames : Function.Injective names) :
    Function.Injective (withNames names : Name × Ty → Name × Ty) := by
  rintro ⟨name, type⟩ ⟨other, otherType⟩ heq
  obtain ⟨hname, hsame⟩ := Prod.mk.inj heq
  exact Prod.ext (hnames hname) hsame

theorem mem_withNames_iff (hnames : Function.Injective names) {name : Name} {type : Ty} :
    (names name, type) ∈ withNames names fields ↔ (name, type) ∈ fields :=
  List.mem_map_of_injective (withNames_injective hnames) (a := (name, type))

theorem ascending_fieldsWithNames (names : Name → Name) (fields : List (Name × Ty)) :
    AscendingByName Prod.fst (fieldsWithNames names fields) :=
  ascendingByName_sortByName _ _

include hnames

theorem fieldsWithNames_perm (hfields : AscendingByName Prod.fst fields) :
    (fieldsWithNames names fields).Perm (withNames names fields) :=
  sortByName_map_perm hnames (withNames names) (fun _ => rfl) hfields

theorem fieldsWithNames_sortByName (fields : List (Name × Ty)) :
    fieldsWithNames names (sortByName Prod.fst fields) = fieldsWithNames names fields :=
  @sortByName_map_sortByName _ _ Prod.fst names hnames Prod.fst (withNames names) (fun _ => rfl)
    fields

theorem fieldsWithNames_eq_iff (hfields : AscendingByName Prod.fst fields)
    (hothers : AscendingByName Prod.fst others) :
    fieldsWithNames names fields = fieldsWithNames names others ↔ fields = others :=
  sortByName_map_eq_iff hnames (withNames names) (fun _ => rfl) (withNames_injective hnames)
    hfields hothers

end Fields

namespace Form

variable {form found : Form}

/-- The fields of a record form ascend. -/
def Ascending (form : Form) : Prop :=
  ∀ ⦃fields : List (Name × Ty)⦄, form = .record fields → AscendingByName Prod.fst fields

theorem parent?_withNames (names : Name → Name) (form : Form) :
    (withNames names form).parent? = form.parent? := by
  cases form <;> rfl

theorem isNominal_withNames (names : Name → Name) (form : Form) :
    (withNames names form).isNominal = form.isNominal := by
  cases form <;> rfl

theorem ascending_withNames (names : Name → Name) (form : Form) :
    (withNames names form).Ascending := by
  intro fields hform
  cases form <;> cases hform
  exact ascending_fieldsWithNames names _

theorem map_snd_withNames (names : Name → Name) (fields : List (Name × Ty)) :
    (withNames names fields).map Prod.snd = fields.map Prod.snd :=
  List.map_map

include hnames

theorem components_withNames (hform : form.Ascending) :
    (withNames names form).components.Perm form.components := by
  cases form with
  | record fields =>
    have hperm := (fieldsWithNames_perm hnames (hform rfl)).map Prod.snd
    rwa [map_snd_withNames] at hperm
  | _ => exact .refl _

theorem mem_mentions_withNames_iff (hform : form.Ascending) {part : Ty} :
    part ∈ (withNames names form).mentions ↔ part ∈ form.mentions := by
  cases form with
  | record fields => exact (components_withNames hnames hform).mem_iff
  | enumDecl name parent variants =>
    have hvariants := map_snd_withNames names variants
    simp only [mentions, withNames] at hvariants ⊢
    rw [hvariants]
  | _ => exact Iff.rfl

/-- Forms are told apart under other names as well. -/
theorem withNames_eq_iff (hform : form.Ascending) (hfound : found.Ascending) :
    withNames names form = withNames names found ↔ form = found := by
  cases form with
  | record fields =>
    cases found with
    | record others =>
      have hfields := fieldsWithNames_eq_iff hnames (hform rfl) (hfound rfl)
      simpa only [withNames, record.injEq] using hfields
    | _ => exact ⟨nofun, nofun⟩
  | classDecl name parent =>
    cases found with
    | classDecl other otherParent => simp only [withNames, classDecl.injEq, hnames.eq_iff]
    | _ => exact ⟨nofun, nofun⟩
  | enumDecl name parent variants =>
    cases found with
    | enumDecl other otherParent others =>
      have hvariants : withNames names variants = withNames names others ↔ variants = others :=
        (List.map_injective_iff.mpr (withNames_injective hnames)).eq_iff
      simp only [withNames] at hvariants ⊢
      simp only [enumDecl.injEq, hnames.eq_iff, hvariants]
    | _ => exact ⟨nofun, nofun⟩
  | _ =>
    cases found with
    | record | classDecl | enumDecl => exact ⟨nofun, nofun⟩
    | _ => exact Iff.rfl

end Form

theorem Flags.ofForm_withNames (hnames : Function.Injective names) {form : Form}
    (hform : form.Ascending) (flagsOf : Ty → Flags) :
    ofForm flagsOf (withNames names form) = ofForm flagsOf form := by
  cases form with
  | record fields =>
    have hperm : ((fieldsWithNames names fields).map fun field => flagsOf field.2).Perm
        (fields.map fun field => flagsOf field.2) := by
      have hcomponents := (Form.components_withNames hnames hform).map flagsOf
      simpa only [withNames, Form.components, List.map_map, Function.comp_def] using hcomponents
    simp only [withNames, ofForm, inheritedFromAll_eq, hperm.any_eq]
  | tuple elements => rfl
  | _ => rfl

namespace Pool

variable {pool later : Pool} {form : Form} {type : Ty}

theorem WellFormed.ascending_of_form? (hpool : pool.WellFormed)
    (hform : pool.form? type = some form) : form.Ascending :=
  fun _ hrecord => hpool.ascending (hrecord ▸ hform)

theorem WellFormed.ascending_of_mem (hpool : pool.WellFormed) {entry : PoolEntry}
    (hmem : entry ∈ pool.entries.toList) : entry.form.Ascending := by
  obtain ⟨index, hindex⟩ := Array.getElem?_of_mem (Array.mem_def.mpr hmem)
  have hform : pool.form? ⟨index⟩ = some entry.form := by rw [form?, hindex, Option.map_some]
  exact hpool.ascending_of_form? hform

section Reads

variable (names : Name → Name) (pool : Pool) (type : Ty)

@[simp] theorem size_withNames : (withNames names pool).size = pool.size :=
  Array.size_map

@[simp] theorem contains_withNames : (withNames names pool).contains type = pool.contains type := by
  simp only [contains, size_withNames]

theorem form?_withNames :
    (withNames names pool).form? type = (pool.form? type).map (withNames names) := by
  simp only [form?, withNames, Array.getElem?_map, Option.map_map]
  rfl

@[simp] theorem flags_withNames : (withNames names pool).flags type = pool.flags type := by
  simp only [flags, withNames, Array.getElem?_map, Option.map_map]
  rfl

@[simp] theorem parent?_withNames : (withNames names pool).parent? type = pool.parent? type := by
  simp only [parent?, form?_withNames, Option.bind_map]
  exact Option.bind_congr fun form _ => form.parent?_withNames names

@[simp] theorem isNominal_withNames :
    (withNames names pool).isNominal type = pool.isNominal type := by
  simp only [isNominal, form?_withNames, Option.any_map]
  exact congrArg (Option.any · (pool.form? type)) (funext (Form.isNominal_withNames names))

theorem variants?_withNames :
    (withNames names pool).variants? type = (pool.variants? type).map (withNames names) := by
  simp only [variants?, form?_withNames]
  cases pool.form? type with
  | none => rfl
  | some form => cases form <;> rfl

theorem elements?_withNames :
    (withNames names pool).elements? type = pool.elements? type := by
  simp only [elements?, form?_withNames]
  cases pool.form? type with
  | none => rfl
  | some form => cases form <;> rfl

theorem fields?_withNames :
    (withNames names pool).fields? type = (pool.fields? type).map (fieldsWithNames names) := by
  simp only [fields?, form?_withNames]
  cases pool.form? type with
  | none => rfl
  | some form => cases form <;> rfl

theorem literalFits_withNames (literal : Literal) :
    (withNames names pool).literalFits type (withNames names literal) =
      pool.literalFits type literal := by
  simp only [literalFits, form?_withNames]
  cases pool.form? type with
  | none => cases literal <;> rfl
  | some form => cases form <;> cases literal <;> rfl

end Reads

protected theorem KeptBy.withNames (names : Name → Name) (hkept : pool.KeptBy later) :
    (withNames names pool).KeptBy (withNames names later) := by
  intro index entry hentry
  simp only [withNames, Array.getElem?_map, Option.map_eq_some_iff] at hentry ⊢
  obtain ⟨old, hold, hentry⟩ := hentry
  exact ⟨old, hkept hold, hentry⟩

section Enter

theorem findIdx?_congr {α : Type} {items : List α} {wanted other : α → Bool}
    (hsame : ∀ item ∈ items, wanted item = other item) :
    items.findIdx? wanted = items.findIdx? other := by
  induction items with
  | nil => rfl
  | cons item rest ih =>
    obtain ⟨hitem, hrest⟩ := List.forall_mem_cons.mp hsame
    rw [List.findIdx?_cons, List.findIdx?_cons, hitem, ih hrest]

include hnames

theorem push_withNames (hform : form.Ascending) :
    (withNames names pool).push (withNames names form) =
      ((pool.push form).1, withNames names (pool.push form).2) := by
  have hflags : (withNames names pool).flags = pool.flags := funext (flags_withNames names pool)
  simp only [push, size_withNames, hflags, Flags.ofForm_withNames hnames hform]
  simp only [withNames, Array.map_push]

protected theorem WellFormed.withNames (hpool : pool.WellFormed) :
    (withNames names pool).WellFormed := by
  have horigin : ∀ {type : Ty} {form : Form},
      (withNames names pool).form? type = some form →
        ∃ old, pool.form? type = some old ∧ withNames names old = form := fun hform =>
    Option.map_eq_some_iff.mp ((form?_withNames names pool _).symm.trans hform)
  have hprimitive : ∀ form ∈ primitiveForms, withNames names form = form := by
    simp [primitiveForms, withNames]
  constructor
  case primitives =>
    intro index form hform
    rw [form?_withNames, hpool.primitives hform, Option.map_some,
      hprimitive form (List.mem_of_getElem? hform)]
  case older =>
    intro type form hform part hpart
    obtain ⟨old, hold, rfl⟩ := horigin hform
    exact hpool.older hold part
      ((Form.mem_mentions_withNames_iff hnames (hpool.ascending_of_form? hold)).mp hpart)
  case nominalParent =>
    intro type form hform parent hparent
    obtain ⟨old, hold, rfl⟩ := horigin hform
    rw [Form.parent?_withNames] at hparent
    rw [isNominal_withNames]
    exact hpool.nominalParent hold hparent
  case ascending =>
    intro type fields hform
    obtain ⟨old, -, hfields⟩ := horigin hform
    exact old.ascending_withNames names hfields
  case unique =>
    intro a b form ha hb hstructural
    obtain ⟨old, hold, rfl⟩ := horigin ha
    obtain ⟨other, hother, heq⟩ := horigin hb
    obtain rfl := (Form.withNames_eq_iff hnames (hpool.ascending_of_form? hother)
      (hpool.ascending_of_form? hold)).mp heq
    rw [Form.isNominal_withNames] at hstructural
    exact hpool.unique hold hother hstructural
  case flagsOf =>
    intro type form hform
    obtain ⟨old, hold, rfl⟩ := horigin hform
    rw [flags_withNames, hpool.flagsOf hold, funext (flags_withNames names pool),
      Flags.ofForm_withNames hnames (hpool.ascending_of_form? hold)]

variable (hpool : pool.WellFormed)
include hpool

theorem intern_withNames (hform : form.Ascending) :
    (withNames names pool).intern (withNames names form) =
      ((pool.intern form).1, withNames names (pool.intern form).2) := by
  have hsame : ∀ entry ∈ pool.entries.toList,
      (withNames names entry.form = withNames names form ↔ entry.form = form) := fun entry hmem =>
    Form.withNames_eq_iff hnames (hpool.ascending_of_mem hmem) hform
  have hfind : (withNames names pool).entries.toList.findIdx?
        (fun entry => entry.form = withNames names form) =
      pool.entries.toList.findIdx? fun entry => entry.form = form := by
    simp only [withNames, Array.toList_map, List.findIdx?_map]
    exact findIdx?_congr fun entry hmem => decide_eq_decide.mpr (hsame entry hmem)
  unfold intern
  rw [hfind]
  split
  · rfl
  · exact push_withNames hnames hform

theorem tuple_withNames (elements : List Ty) :
    (withNames names pool).tuple elements =
      ((pool.tuple elements).1, withNames names (pool.tuple elements).2) := by
  cases elements with
  | nil => rfl
  | cons first rest =>
    exact @intern_withNames names hnames pool (.tuple (first :: rest)) hpool nofun

theorem record_withNames (fields : List (Name × Ty)) :
    (withNames names pool).record (withNames names fields) =
      ((pool.record fields).1, withNames names (pool.record fields).2) := by
  have hform : Form.record (sortByName Prod.fst (withNames names fields)) =
      withNames names (Form.record (sortByName Prod.fst fields)) :=
    congrArg Form.record (fieldsWithNames_sortByName hnames fields).symm
  rw [record, hform, intern_withNames hnames hpool]
  · rfl
  · intro sorted hsorted
    cases hsorted
    exact ascendingByName_sortByName Prod.fst fields

end Enter

end Pool

end OrPattern
