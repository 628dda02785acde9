import OrPattern.Proofs.Join.Bounds

namespace OrPattern

/-- What all types above a type have in common with it, unless it is `never`. -/
inductive Form.Kind where
  | int
  | float
  | bool
  | char
  | str
  | never
  | tuple
  | record
  | nominal
deriving DecidableEq

def Form.kind : Form → Form.Kind
  | .int _ => .int
  | .float _ => .float
  | .bool => .bool
  | .char => .char
  | .str => .str
  | .never => .never
  | .tuple _ => .tuple
  | .record _ => .record
  | .classDecl .. | .enumDecl .. => .nominal

theorem Form.kind_eq_nominal_iff {form : Form} : form.kind = .nominal ↔ form.isNominal := by
  cases form <;> simp [kind, isNominal]

namespace Pool

variable {pool : Pool} {a b bound : Ty}

theorem Below.kind_eq (hpool : pool.WellFormed) {form : Form} (hform : pool.form? a = some form)
    (hnever : a ≠ .never) (hbelow : pool.Below a bound) :
    ∃ above, pool.form? bound = some above ∧ above.kind = form.kind := by
  cases hbelow with
  | refl => exact ⟨form, hform, rfl⟩
  | never => exact absurd rfl hnever
  | int aForm bForm _ | float aForm bForm _ | tuple aForm bForm _ _ _
  | record _ aForm bForm _ _ _ =>
    cases hform.symm.trans aForm
    exact ⟨_, bForm, rfl⟩
  | nominal descends =>
    obtain ⟨hlow, hhigh⟩ := hpool.isNominal_of_descends descends
    obtain ⟨low, hlowForm, hlow⟩ := isNominal_iff.mp hlow
    obtain ⟨high, hhighForm, hhigh⟩ := isNominal_iff.mp hhigh
    cases hform.symm.trans hlowForm
    exact ⟨high, hhighForm,
      (Form.kind_eq_nominal_iff.mpr hhigh).trans (Form.kind_eq_nominal_iff.mpr hlow).symm⟩

/-- Two types of one kind compare, unless they are composed or declared. -/
theorem WellFormed.comparable_of_kind_eq (hpool : pool.WellFormed) {aForm bForm : Form}
    (ha : pool.form? a = some aForm) (hb : pool.form? b = some bForm)
    (hkind : aForm.kind = bForm.kind) (htuple : aForm.kind ≠ .tuple)
    (hrecord : aForm.kind ≠ .record) (hnominal : aForm.kind ≠ .nominal) :
    pool.Below a b ∨ pool.Below b a := by
  have hsame : aForm = bForm → aForm.isNominal = false → pool.Below a b := fun heq hstructural => by
    cases hpool.unique ha (heq ▸ hb) hstructural
    exact .refl a
  cases aForm with
  | int low =>
    cases bForm with
    | int high => exact (Nat.le_total low.bits high.bits).imp (.int ha hb) (.int hb ha)
    | _ => cases hkind
  | float low =>
    cases bForm with
    | float high => exact (Nat.le_total low.bits high.bits).imp (.float ha hb) (.float hb ha)
    | _ => cases hkind
  | bool | char | str | never =>
    cases bForm <;> first | exact .inl (hsame rfl rfl) | cases hkind
  | tuple _ => exact absurd rfl htuple
  | record _ => exact absurd rfl hrecord
  | classDecl _ _ | enumDecl _ _ _ => exact absurd rfl hnominal

/-- Types of different kinds have nothing above both, unless they compare. -/
theorem noneAbove_of_kind_ne {aForm bForm : Form}
    (ha : pool.form? a = some aForm) (hb : pool.form? b = some bForm)
    (hab : ¬ pool.Below a b) (hba : ¬ pool.Below b a) (hkind : aForm.kind ≠ bForm.kind) :
    pool.NoneAbove (Pair a b) := by
  intro later hlater hkept bound habove
  obtain ⟨hlow, hhigh⟩ := above_pair_iff.mp habove
  have hnever : a ≠ .never := fun h => hab (h ▸ .never b)
  have hnever' : b ≠ .never := fun h => hba (h ▸ .never a)
  obtain ⟨form, hform, hsame⟩ := hlow.kind_eq hlater (hkept.form? ha) hnever
  obtain ⟨form', hform', hsame'⟩ := hhigh.kind_eq hlater (hkept.form? hb) hnever'
  cases hform.symm.trans hform'
  exact hkind (hsame.symm.trans hsame')

end Pool

end OrPattern
