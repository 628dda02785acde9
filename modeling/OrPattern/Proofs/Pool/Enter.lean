import OrPattern.Proofs.Name.Ascending
import OrPattern.Proofs.Pool.WellFormed

namespace OrPattern

namespace Pool

variable {pool : Pool}

theorem keptBy_tuple (pool : Pool) (elements : List Ty) : pool.KeptBy (pool.tuple elements).2 := by
  cases elements with
  | nil => exact KeptBy.refl pool
  | cons first rest => exact keptBy_intern pool _

theorem keptBy_record (pool : Pool) (fields : List (Name × Ty)) :
    pool.KeptBy (pool.record fields).2 :=
  keptBy_intern pool _

theorem keptBy_declareClass (pool : Pool) (name : Name) (parent : Option Ty) :
    pool.KeptBy (pool.declareClass name parent).2 :=
  keptBy_push pool _

theorem keptBy_declareEnum (pool : Pool) (name : Name) (parent : Option Ty)
    (variants : List (Name × Ty)) : pool.KeptBy (pool.declareEnum name parent variants).2 :=
  keptBy_push pool _

theorem form?_record (pool : Pool) (fields : List (Name × Ty)) :
    (pool.record fields).2.form? (pool.record fields).1 =
      some (.record (sortByName Prod.fst fields)) :=
  form?_intern pool _

theorem nominalParent_eq_some {parent : Option Ty} {type : Ty}
    (hparent : pool.nominalParent parent = some type) :
    parent = some type ∧ pool.isNominal type :=
  Option.filter_eq_some_iff.mp hparent

namespace WellFormed

theorem form?_tuple (hpool : pool.WellFormed) (elements : List Ty) :
    (pool.tuple elements).2.form? (pool.tuple elements).1 = some (.tuple elements) := by
  cases elements with
  | nil => exact @hpool.primitives 9 _ rfl
  | cons first rest => exact form?_intern pool _

theorem tuple (hpool : pool.WellFormed) {elements : List Ty}
    (hknown : ∀ type ∈ elements, pool.contains type) : (pool.tuple elements).2.WellFormed := by
  cases elements with
  | nil => exact hpool
  | cons first rest => exact hpool.intern ⟨hknown, nofun, nofun⟩

theorem record (hpool : pool.WellFormed) {fields : List (Name × Ty)}
    (hknown : ∀ field ∈ fields, pool.contains field.2) : (pool.record fields).2.WellFormed := by
  refine hpool.intern ⟨fun part hpart => ?_, nofun, fun hform => ?_⟩
  · obtain ⟨field, hfield, rfl⟩ := List.mem_map.mp hpart
    exact hknown field (mem_of_mem_sortByName hfield)
  · cases hform
    exact ascendingByName_sortByName Prod.fst fields

theorem declareClass (hpool : pool.WellFormed) (name : Name) {parent : Option Ty}
    (hknown : ∀ type ∈ parent, pool.contains type) :
    (pool.declareClass name parent).2.WellFormed := by
  refine hpool.push ⟨fun part hpart => ?_, fun hparent => ?_, nofun⟩ nofun
  · exact hknown part (nominalParent_eq_some (Option.mem_toList.mp hpart)).1
  · exact (nominalParent_eq_some hparent).2

theorem declareEnum (hpool : pool.WellFormed) (name : Name) {parent : Option Ty}
    {variants : List (Name × Ty)} (hknown : ∀ type ∈ parent, pool.contains type)
    (hpayloads : ∀ variant ∈ variants, pool.contains variant.2) :
    (pool.declareEnum name parent variants).2.WellFormed := by
  refine hpool.push ⟨fun part hpart => ?_, fun hparent => ?_, nofun⟩ nofun
  · rcases List.mem_append.mp hpart with hparent | hpayload
    · exact hknown part (nominalParent_eq_some (Option.mem_toList.mp hparent)).1
    · obtain ⟨variant, hvariant, rfl⟩ := List.mem_map.mp hpayload
      exact hpayloads variant hvariant
  · exact (nominalParent_eq_some hparent).2

end WellFormed

end Pool

end OrPattern
