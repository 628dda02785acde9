import OrPattern.Proofs.Name.Ascending
import OrPattern.Proofs.Order.Decision

namespace OrPattern

theorem IntWidth.bits_injective {low high : IntWidth} (hbits : low.bits = high.bits) : low = high := by
  cases low <;> cases high <;> first | rfl | cases hbits

theorem FloatWidth.bits_injective {low high : FloatWidth} (hbits : low.bits = high.bits) :
    low = high := by
  cases low <;> cases high <;> first | rfl | cases hbits

namespace Pool

namespace WellFormed

variable {pool : Pool} {a b : Ty}

theorem not_descends (hpool : pool.WellFormed) {form : Form} (hform : pool.form? a = some form)
    (hstructural : form.isNominal = false) : ¬ pool.Descends a b := by
  intro hdescends
  obtain ⟨found, hfound, hnominal⟩ := isNominal_iff.mp (hpool.isNominal_of_descends hdescends).1
  cases hform.symm.trans hfound
  rw [hnominal] at hstructural
  cases hstructural

end WellFormed

namespace Below

variable {pool : Pool} {a b c : Ty}

/-- Above an integer type stand the integer types that are as wide. -/
theorem of_int (hpool : pool.WellFormed) {low : IntWidth} (hform : pool.form? a = some (.int low))
    (hbelow : pool.Below a b) :
    ∃ high, pool.form? b = some (.int high) ∧ low.bits ≤ high.bits := by
  cases hbelow with
  | refl => exact ⟨low, hform, Nat.le_refl _⟩
  | never => cases hform.symm.trans hpool.form?_never
  | int aForm bForm wider =>
    cases hform.symm.trans aForm
    exact ⟨_, bForm, wider⟩
  | float aForm _ _ | tuple aForm _ _ _ _ | record _ aForm _ _ _ _ =>
    cases hform.symm.trans aForm
  | nominal descends => exact absurd descends (hpool.not_descends hform rfl)

/-- Above a float type stand the float types that are as wide. -/
theorem of_float (hpool : pool.WellFormed) {low : FloatWidth}
    (hform : pool.form? a = some (.float low)) (hbelow : pool.Below a b) :
    ∃ high, pool.form? b = some (.float high) ∧ low.bits ≤ high.bits := by
  cases hbelow with
  | refl => exact ⟨low, hform, Nat.le_refl _⟩
  | never => cases hform.symm.trans hpool.form?_never
  | float aForm bForm wider =>
    cases hform.symm.trans aForm
    exact ⟨_, bForm, wider⟩
  | int aForm _ _ | tuple aForm _ _ _ _ | record _ aForm _ _ _ _ =>
    cases hform.symm.trans aForm
  | nominal descends => exact absurd descends (hpool.not_descends hform rfl)

/-- Above a tuple stand tuples of as many elements, each above its own. -/
theorem of_tuple (hpool : pool.WellFormed) {xs : List Ty}
    (hform : pool.form? a = some (.tuple xs)) (hbelow : pool.Below a b) :
    ∃ ys, pool.form? b = some (.tuple ys) ∧ xs.length = ys.length ∧
      ∀ (index : Nat) (x y : Ty), xs[index]? = some x → ys[index]? = some y → pool.Below x y := by
  cases hbelow with
  | refl =>
    refine ⟨xs, hform, rfl, fun index x y hx hy => ?_⟩
    cases hx.symm.trans hy
    exact .refl x
  | never => cases hform.symm.trans hpool.form?_never
  | tuple aForm bForm arity _ elements =>
    cases hform.symm.trans aForm
    exact ⟨_, bForm, arity, elements⟩
  | int aForm _ _ | float aForm _ _ | record _ aForm _ _ _ _ => cases hform.symm.trans aForm
  | nominal descends => exact absurd descends (hpool.not_descends hform rfl)

/-- Above a record stand the record itself and non-empty records, of which it has
    every field at a lower type. -/
theorem of_record (hpool : pool.WellFormed) {xs : List (Name × Ty)}
    (hform : pool.form? a = some (.record xs)) (hbelow : pool.Below a b) :
    ∃ ys, pool.form? b = some (.record ys) ∧ (ys ≠ [] ∨ b = a) ∧
      ∀ (name : Name) (y : Ty), (name, y) ∈ ys → ∃ x, (name, x) ∈ xs ∧ pool.Below x y := by
  cases hbelow with
  | refl => exact ⟨xs, hform, .inr rfl, fun name y hy => ⟨y, hy, .refl y⟩⟩
  | never => cases hform.symm.trans hpool.form?_never
  | record pick aForm bForm nonempty present fields =>
    cases hform.symm.trans aForm
    exact ⟨_, bForm, .inl nonempty, fun name y hy =>
      ⟨pick name, present name y hy, fields name y hy⟩⟩
  | int aForm _ _ | float aForm _ _ | tuple aForm _ _ _ _ => cases hform.symm.trans aForm
  | nominal descends => exact absurd descends (hpool.not_descends hform rfl)

theorem eq_never (hpool : pool.WellFormed) (hbelow : pool.Below a .never) : a = .never := by
  have hform := hpool.form?_never
  cases hbelow with
  | refl | never => rfl
  | int _ supForm _ | float _ supForm _ | tuple _ supForm _ _ _ | record _ _ supForm _ _ _ =>
    cases hform.symm.trans supForm
  | nominal descends =>
    obtain ⟨form, hsup, hdeclared⟩ := isNominal_iff.mp (hpool.isNominal_of_descends descends).2
    cases hform.symm.trans hsup
    cases hdeclared

theorem trans (hpool : pool.WellFormed) (hab : pool.Below a b) (hbc : pool.Below b c) :
    pool.Below a c := by
  induction hab generalizing c with
  | refl => exact hbc
  | never => exact .never c
  | int aForm bForm wider =>
    obtain ⟨_, cForm, wider'⟩ := hbc.of_int hpool bForm
    exact .int aForm cForm (Nat.le_trans wider wider')
  | float aForm bForm wider =>
    obtain ⟨_, cForm, wider'⟩ := hbc.of_float hpool bForm
    exact .float aForm cForm (Nat.le_trans wider wider')
  | nominal descends =>
    rcases hpool.eq_or_descends (hpool.isNominal_of_descends descends).2 hbc with rfl | further
    · exact .nominal descends
    · exact .nominal (descends.trans further)
  | @tuple a b xs ys aForm bForm arity nonempty elements ih =>
    obtain ⟨zs, cForm, arity', elements'⟩ := hbc.of_tuple hpool bForm
    refine .tuple aForm cForm (arity.trans arity') nonempty fun index x z hx hz => ?_
    have hlt : index < ys.length := arity ▸ (List.getElem?_eq_some_iff.mp hx).choose
    have hy := List.getElem?_eq_getElem hlt
    exact ih index x ys[index] hx hy (elements' index ys[index] z hy hz)
  | @record a b xs ys pick aForm bForm nonempty present fields ih =>
    obtain ⟨zs, cForm, hcases, fields'⟩ := hbc.of_record hpool bForm
    rcases hcases with nonempty' | rfl
    · have hmiddle : ∀ name z, (name, z) ∈ zs →
          (name, pick name) ∈ xs ∧ pool.Below (pick name) z := by
        intro name z hz
        obtain ⟨y, hy, hyz⟩ := fields' name z hz
        exact ⟨present name y hy, ih name y hy hyz⟩
      exact .record pick aForm cForm nonempty' (fun name z hz => (hmiddle name z hz).1)
        fun name z hz => (hmiddle name z hz).2
    · exact .record pick aForm bForm nonempty present fields

/-- Two types that stand below each other are one: their parts are equal, and
    equal tuples and records are entered once. -/
theorem antisymm (hpool : pool.WellFormed) (hab : pool.Below a b) (hba : pool.Below b a) :
    a = b := by
  induction hab with
  | refl => rfl
  | never => exact (hba.eq_never hpool).symm
  | int aForm bForm wider =>
    obtain ⟨_, aForm', wider'⟩ := hba.of_int hpool bForm
    cases aForm.symm.trans aForm'
    have hwidth := IntWidth.bits_injective (Nat.le_antisymm wider wider')
    exact hpool.unique aForm (hwidth ▸ bForm) rfl
  | float aForm bForm wider =>
    obtain ⟨_, aForm', wider'⟩ := hba.of_float hpool bForm
    cases aForm.symm.trans aForm'
    have hwidth := FloatWidth.bits_injective (Nat.le_antisymm wider wider')
    exact hpool.unique aForm (hwidth ▸ bForm) rfl
  | @nominal a b descends =>
    have hlow := hpool.ancestor_older descends
    rcases hpool.eq_or_descends (hpool.isNominal_of_descends descends).2 hba with rfl | further
    · rfl
    · have hhigh := hpool.ancestor_older further
      omega
  | @tuple a b xs ys aForm bForm arity nonempty elements ih =>
    obtain ⟨zs, aForm', -, elements'⟩ := hba.of_tuple hpool bForm
    cases aForm.symm.trans aForm'
    have helements : xs = ys := by
      refine List.ext_getElem arity fun index hx hy => ?_
      have hx := List.getElem?_eq_getElem hx
      have hy := List.getElem?_eq_getElem hy
      exact ih index _ _ hx hy (elements' index _ _ hy hx)
    exact hpool.unique aForm (helements ▸ bForm) rfl
  | @record a b xs ys pick aForm bForm nonempty present fields ih =>
    obtain ⟨zs, aForm', -, fields'⟩ := hba.of_record hpool bForm
    cases aForm.symm.trans aForm'
    have hxs := hpool.ascending aForm
    have hys := hpool.ascending bForm
    have hsub : ∀ name y, (name, y) ∈ ys → (name, y) ∈ xs := by
      intro name y hy
      have hpick := present name y hy
      obtain ⟨y', hy', hback⟩ := fields' name (pick name) hpick
      cases hys.eq_of_key_eq hy hy' rfl
      exact ih name y hy hback ▸ hpick
    have hsup : ∀ name x, (name, x) ∈ xs → (name, x) ∈ ys := by
      intro name x hx
      obtain ⟨y, hy, -⟩ := fields' name x hx
      cases hxs.eq_of_key_eq hx (hsub name y hy) rfl
      exact hy
    have hfields : xs = ys := hxs.eq_of_mem_iff hys fun field => ⟨hsup _ _, hsub _ _⟩
    exact hpool.unique aForm (hfields ▸ bForm) rfl

end Below

end Pool

end OrPattern
