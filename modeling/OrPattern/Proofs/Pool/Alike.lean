import OrPattern.Proofs.Pool.Embedding

namespace OrPattern

/-- Data in which types occur: how they get other numbers in it, and when a pool
    holds all of them that matter. -/
class HasTypes (α : Type) where
  rename : (Ty → Ty) → α → α
  Known : Pool → α → Prop
  known_mono : ∀ {pool later : Pool} {value : α}, pool.KeptBy later → Known pool value →
    Known later value

namespace HasTypes

variable {α β : Type}

instance : HasTypes Ty where
  rename rename := rename
  Known pool type := pool.contains type
  known_mono hkept hknown := hkept.contains hknown

instance [HasTypes α] : HasTypes (Option α) where
  rename numbers := Option.map (rename numbers)
  Known pool value? := ∀ value ∈ value?, Known pool value
  known_mono hkept hknown value hvalue := known_mono hkept (hknown value hvalue)

instance [HasTypes α] : HasTypes (List α) where
  rename numbers := List.map (rename numbers)
  Known pool values := ∀ value ∈ values, Known pool value
  known_mono hkept hknown value hvalue := known_mono hkept (hknown value hvalue)

instance [HasTypes β] : HasTypes (Name × β) where
  rename numbers entry := (entry.1, rename numbers entry.2)
  Known pool entry := Known pool entry.2
  known_mono := known_mono (α := β)

theorem known_none [HasTypes α] (pool : Pool) : Known pool (none : Option α) := by simp [Known]

theorem known_some_iff [HasTypes α] {pool : Pool} {value : α} :
    Known pool (some value) ↔ Known pool value := by
  simp [Known]

end HasTypes

namespace Pool

/-- The later pool is the first one with more entries, and repeats no form if the
    first one repeats none. -/
structure Extends (pool later : Pool) : Prop where
  kept : pool.KeptBy later
  unique : pool.Unique → later.Unique

namespace Extends

theorem refl (pool : Pool) : pool.Extends pool := ⟨KeptBy.refl pool, id⟩

theorem trans {a b c : Pool} (hab : a.Extends b) (hbc : b.Extends c) : a.Extends c :=
  ⟨hab.kept.trans hbc.kept, hbc.unique ∘ hab.unique⟩

/-- If the pool is as it was in the end, it was so in between. -/
theorem still {pool middle last : Pool} (hfirst : pool.Extends middle)
    (hrest : middle.Extends last) (hstill : last = pool) : middle = pool := by
  subst hstill
  exact hfirst.kept.eq_of_contains fun _ => hrest.kept.contains

end Extends

theorem extends_intern (pool : Pool) (form : Form) : pool.Extends (pool.intern form).2 :=
  ⟨keptBy_intern pool form, fun hunique => hunique.intern form⟩

theorem extends_tuple (pool : Pool) (elements : List Ty) :
    pool.Extends (pool.tuple elements).2 := by
  cases elements with
  | nil => exact .refl pool
  | cons first rest => exact extends_intern pool _

theorem extends_record (pool : Pool) (fields : List (Name × Ty)) :
    pool.Extends (pool.record fields).2 :=
  extends_intern pool _

/-- The second pool holds under new numbers what the first one holds. Both are to end
    up within a common pool, which repeats no form. -/
structure Twins (common : Pool) (rename : Ty → Ty) (pool other : Pool) : Prop where
  wellFormed : pool.WellFormed
  otherWellFormed : other.WellFormed
  embeds : pool.Embeds other rename
  unique : common.Unique

/-- Two runs that start with `pool` and `other` have results that differ in the
    numbers of the types only, and the second run adds no type that is not found
    in the first one as well. -/
structure Alike {α : Type} [HasTypes α] (common : Pool) (rename : Ty → Ty) (pool other : Pool)
    (run otherRun : α × Pool) : Prop where
  kept : pool.KeptBy run.2
  result : otherRun.1 = HasTypes.rename rename run.1
  known : HasTypes.Known run.2 run.1
  twins : Twins common rename run.2 otherRun.2
  new : ∀ type, otherRun.2.contains type →
    other.contains type ∨ ∃ origin, run.2.contains origin ∧ rename origin = type

/-- Two runs are alike if the common pool has room for what they leave. -/
def EndAlike {α : Type} [HasTypes α] (common : Pool) (rename : Ty → Ty) (pool other : Pool)
    (run otherRun : α × Pool) : Prop :=
  run.2.Embeds common rename → otherRun.2.KeptBy common →
    Alike common rename pool other run otherRun

variable {α β : Type} [HasTypes α] [HasTypes β] {common pool other : Pool} {rename : Ty → Ty}

/-- Nothing was entered. -/
theorem Twins.endAlike (htwins : Twins common rename pool other) (value : α)
    (hknown : HasTypes.Known pool value) :
    EndAlike common rename pool other (value, pool) (HasTypes.rename rename value, other) :=
  fun _ _ => ⟨KeptBy.refl pool, rfl, hknown, htwins, fun _ => .inl⟩

/-- Runs that are alike go on alike if what follows is alike. -/
theorem EndAlike.andThen {run otherRun : α × Pool} {last otherLast : β × Pool}
    (hfirst : EndAlike common rename pool other run otherRun) (hkept : run.2.KeptBy last.2)
    (hkept' : otherRun.2.KeptBy otherLast.2)
    (hnext : Alike common rename pool other run otherRun →
      EndAlike common rename run.2 otherRun.2 last otherLast) :
    EndAlike common rename pool other last otherLast := by
  intro hembeds hcommon
  have hfirst := hfirst (.of_kept hkept hembeds) (hkept'.trans hcommon)
  have hlast := hnext hfirst hembeds hcommon
  refine ⟨hfirst.kept.trans hlast.kept, hlast.result, hlast.known, hlast.twins,
    fun type htype => ?_⟩
  rcases hlast.new type htype with hmiddle | hnew
  · rcases hfirst.new type hmiddle with hold | ⟨origin, horigin, heq⟩
    · exact .inl hold
    · exact .inr ⟨origin, hkept.contains horigin, heq⟩
  · exact .inr hnew

theorem EndAlike.map {run otherRun : α × Pool}
    (hruns : EndAlike common rename pool other run otherRun) (change otherChange : α → β)
    (hchange : otherChange (HasTypes.rename rename run.1) = HasTypes.rename rename (change run.1))
    (hknown : pool.KeptBy run.2 → HasTypes.Known run.2 run.1 →
      HasTypes.Known run.2 (change run.1)) :
    EndAlike common rename pool other (change run.1, run.2)
      (otherChange otherRun.1, otherRun.2) := by
  intro hembeds hcommon
  have halike := hruns hembeds hcommon
  refine ⟨halike.kept, ?_, hknown halike.kept halike.known, halike.twins, halike.new⟩
  rw [halike.result, hchange]

namespace Twins

variable (htwins : Twins common rename pool other)
include htwins

/-- A form that is entered on both sides has one number in the common pool. -/
theorem endAlike_intern (form : Form) (hadmits : pool.Admits form)
    (hadmits' : other.Admits (form.rename rename)) (hstructural : form.isNominal = false) :
    EndAlike common rename pool other (pool.intern form) (other.intern (form.rename rename)) := by
  intro hembeds hcommon
  have hform := form?_intern pool form
  have hform' := form?_intern other (form.rename rename)
  have hsame : rename (pool.intern form).1 = (other.intern (form.rename rename)).1 :=
    htwins.unique (hembeds.renamed hform) (hcommon.form? hform')
      (by rwa [Form.isNominal_rename])
  refine ⟨keptBy_intern pool form, hsame.symm, contains_of_form? hform,
    ⟨htwins.wellFormed.intern hadmits, htwins.otherWellFormed.intern hadmits',
      ⟨hembeds.injective, fun {type found} hfound => ?_⟩, htwins.unique⟩,
    fun type htype => ?_⟩
  · rcases form?_intern_eq_some hfound with hold | ⟨rfl, rfl⟩
    · exact (keptBy_intern other _).form? (htwins.embeds.renamed hold)
    · rw [hsame]
      exact hform'
  · obtain ⟨found, hfound⟩ := exists_form?_of_contains htype
    rcases form?_intern_eq_some hfound with hold | ⟨rfl, -⟩
    · exact .inl (contains_of_form? hold)
    · exact .inr ⟨_, contains_of_form? hform, hsame⟩

theorem endAlike_tuple {elements : List Ty} (hknown : HasTypes.Known pool elements) :
    EndAlike common rename pool other (pool.tuple elements)
      (other.tuple (HasTypes.rename rename elements)) := by
  cases elements with
  | nil =>
    have hunit : rename .unit = .unit :=
      @Embeds.rename_primitive _ _ _ htwins.embeds htwins.wellFormed htwins.otherWellFormed 9 _ rfl
    have hhere := htwins.endAlike Ty.unit
      (contains_of_form? (@htwins.wellFormed.primitives 9 _ rfl))
    rwa [show HasTypes.rename rename Ty.unit = Ty.unit from hunit] at hhere
  | cons first rest =>
    refine htwins.endAlike_intern (.tuple (first :: rest)) ⟨hknown, nofun, nofun⟩
      ⟨fun part hpart => ?_, nofun, nofun⟩ rfl
    obtain ⟨old, hold, rfl⟩ := List.mem_map.mp hpart
    exact htwins.embeds.contains (hknown old hold)

theorem endAlike_record {fields : List (Name × Ty)} (hknown : HasTypes.Known pool fields) :
    EndAlike common rename pool other (pool.record fields)
      (other.record (HasTypes.rename rename fields)) := by
  have hsorted : sortByName Prod.fst (HasTypes.rename rename fields) =
      HasTypes.rename rename (sortByName Prod.fst fields) := sortByName_map (fun _ => rfl) fields
  have hascending := ascendingByName_sortByName Prod.fst fields
  have hfield : ∀ field ∈ sortByName Prod.fst fields, pool.contains field.2 := fun field hmem =>
    hknown field (mem_of_mem_sortByName hmem)
  simp only [record, hsorted]
  refine htwins.endAlike_intern (.record (sortByName Prod.fst fields))
    ⟨fun part hpart => ?_, nofun, fun hform => ?_⟩
    ⟨fun part hpart => ?_, nofun, fun hform => ?_⟩ rfl
  · obtain ⟨field, hmem, rfl⟩ := List.mem_map.mp hpart
    exact hfield field hmem
  · cases hform
    exact hascending
  · rw [Form.mentions_rename] at hpart
    obtain ⟨old, hold, rfl⟩ := List.mem_map.mp hpart
    obtain ⟨field, hmem, rfl⟩ := List.mem_map.mp hold
    exact htwins.embeds.contains (hfield field hmem)
  · cases hform
    exact List.pairwise_map.mpr hascending

end Twins

end Pool

end OrPattern
