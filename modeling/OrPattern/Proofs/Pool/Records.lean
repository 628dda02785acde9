import OrPattern.Proofs.Join.Alike
import OrPattern.Proofs.Join.All
import OrPattern.Proofs.Name.Stable
import OrPattern.Ty.View

namespace OrPattern

namespace Pool

variable {start pool later : Pool} {type : Ty}

/-- Declared types may be entered again without repeating a form that matters. -/
theorem extends_push_of_isNominal (pool : Pool) {form : Form} (hnominal : form.isNominal = true) :
    pool.Extends (pool.push form).2 := by
  refine ⟨keptBy_push pool form, fun hunique => hunique.push fun hstructural => ?_⟩
  rw [hnominal] at hstructural
  cases hstructural

/-- Growth only adds entries, none of them a tuple or record that is there. -/
theorem Grows.extends (hgrows : Grows start pool) : start.Extends pool := by
  induction hgrows with
  | refl => exact .refl start
  | declareClass _ name parent _ ih => exact ih.trans (extends_push_of_isNominal _ rfl)
  | declareEnum _ name parent variants _ _ ih => exact ih.trans (extends_push_of_isNominal _ rfl)
  | tuple _ elements _ ih => exact ih.trans (extends_tuple _ elements)
  | record _ fields _ ih => exact ih.trans (extends_record _ fields)
  | join _ a b _ _ ih => exact ih.trans (extends_join _ a b)

theorem field?_of_form? {entries : List (Name × Ty)}
    (hform : pool.form? type = some (.record (sortByName Prod.fst entries))) (name : Name) :
    pool.field? type name = entries.lookup name := by
  rw [field?, fields?, hform, Option.bind_some, lookup_sortByName]

/-- A record type that is there is found again for exactly the lists of fields that
    say the same of every name. -/
theorem record_eq_iff {entries : List (Name × Ty)} (hunique : pool.Unique)
    (hform : pool.form? type = some (.record (sortByName Prod.fst entries)))
    (others : List (Name × Ty)) :
    (pool.record others).1 = type ↔ ∀ name, others.lookup name = entries.lookup name := by
  have hextends := extends_record pool others
  have hkept := hextends.kept.form? hform
  have hentered := form?_record pool others
  rw [← sortByName_eq_iff]
  refine ⟨fun hsame => ?_, fun hsorted => ?_⟩
  · rw [hsame, hkept] at hentered
    exact (Form.record.inj (Option.some.inj hentered)).symm
  · rw [hsorted] at hentered
    exact hextends.unique hunique hentered hkept rfl

/-- A record type stands for what its fields say of each name. Its fields are kept
    in a stable order by name, of those with one name the first only. Under a name
    it has for good the type that was listed first for it, and nothing under a name
    that was not listed; and whatever the pool holds later on, joins that were
    entered meanwhile included, a list of fields gets the same number if and only if
    it lists the same types first for the same names. -/
theorem record_canonical (hpool : pool.Reachable) (fields : List (Name × Ty)) :
    let entered := pool.record fields
    entered.2.form? entered.1 = some (.record
      ((fields.mergeSort fun a b => a.1.number ≤ b.1.number).destutter fun a b => a.1 ≠ b.1)) ∧
    ∀ later, Grows entered.2 later →
      (∀ name, later.field? entered.1 name = fields.lookup name) ∧
      ∀ others, (later.record others).1 = entered.1 ↔
        ∀ name, others.lookup name = fields.lookup name := by
  intro entered
  have hform := form?_record pool fields
  refine ⟨by rw [hform, sortByName_eq_destutter_mergeSort], fun later hlater => ?_⟩
  have hextends : pool.Extends later := (extends_record pool fields).trans hlater.extends
  have hlast := hlater.extends.kept.form? hform
  exact ⟨field?_of_form? hlast, record_eq_iff (hextends.unique hpool.wellFormed.unique) hlast⟩

/-- Two records join at a third one, which a list that repeats its only name finds. -/
theorem record_canonical_of_repeated :
    let records := ((initial.record [(⟨1⟩, .i8), (⟨2⟩, .bool)]).2.record
      [(⟨1⟩, .i16), (⟨3⟩, .char)]).2
    let entered := (records.join ⟨11⟩ ⟨12⟩).2.record [(⟨1⟩, .i16), (⟨1⟩, .i8)]
    (records.join ⟨11⟩ ⟨12⟩).1 = some ⟨13⟩ ∧ entered.1 = ⟨13⟩ ∧
      entered.2.field? ⟨13⟩ ⟨1⟩ = some .i16 ∧ entered.2.field? ⟨13⟩ ⟨2⟩ = none ∧
      (entered.2.record [(⟨1⟩, .i16)]).1 = ⟨13⟩ ∧ (entered.2.record [(⟨1⟩, .i8)]).1 ≠ ⟨13⟩ := by
  intro records entered
  have hpool : (records.join ⟨11⟩ ⟨12⟩).2.Reachable :=
    (((Grows.refl initial).record [(⟨1⟩, .i8), (⟨2⟩, .bool)] (by decide)).record
      [(⟨1⟩, .i16), (⟨3⟩, .char)] (by decide)).join ⟨11⟩ ⟨12⟩ (by decide) (by decide)
  have hentered : entered.1 = ⟨13⟩ := by decide +kernel
  obtain ⟨-, hlater⟩ := record_canonical hpool [(⟨1⟩, .i16), (⟨1⟩, .i8)]
  obtain ⟨hfield, hsame⟩ := hlater entered.2 (Grows.refl entered.2)
  rw [← hentered]
  refine ⟨?_, rfl, hfield ⟨1⟩, hfield ⟨2⟩, (hsame _).mpr fun name => ?_, fun heq => ?_⟩
  · rw [hentered]
    decide +kernel
  · simp only [List.lookup_cons]
    split <;> rfl
  · cases (hsame _).mp heq ⟨1⟩

end Pool

end OrPattern
