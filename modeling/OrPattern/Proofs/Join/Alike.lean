import OrPattern.Proofs.Join.All
import OrPattern.Proofs.Pool.Alike

namespace OrPattern

namespace Form

variable {form found : Form} {rename : Ty → Ty}

theorem tuples_of_renamed
    (h : ∃ xs ys, form.rename rename = .tuple xs ∧ found.rename rename = .tuple ys ∧
      xs.length = ys.length) :
    ∃ xs ys, form = .tuple xs ∧ found = .tuple ys ∧ xs.length = ys.length := by
  obtain ⟨xs, ys, hform, hfound, harity⟩ := h
  cases form <;> cases hform
  cases found <;> cases hfound
  exact ⟨_, _, rfl, rfl, by simpa using harity⟩

theorem records_of_renamed
    (h : ∃ as bs, form.rename rename = .record as ∧ found.rename rename = .record bs) :
    ∃ as bs, form = .record as ∧ found = .record bs := by
  obtain ⟨as, bs, hform, hfound⟩ := h
  cases form <;> cases hform
  cases found <;> cases hfound
  exact ⟨_, _, rfl, rfl⟩

end Form

namespace Pool

/-- The tuple of joined elements, if all of them have a join. -/
def tupled : Option (List Ty) × Pool → Option Ty × Pool
  | (some types, next) => (some (next.tuple types).1, (next.tuple types).2)
  | (none, next) => (none, next)

/-- The record of joined fields, if any of them have a join. -/
def recorded : List (Name × Ty) × Pool → Option Ty × Pool
  | ([], next) => (none, next)
  | (fields, next) => (some (next.record fields).1, (next.record fields).2)

section Extends

theorem extends_tupled (joined : Option (List Ty) × Pool) : joined.2.Extends (tupled joined).2 := by
  obtain ⟨_ | types, next⟩ := joined
  · exact .refl next
  · exact extends_tuple next types

theorem extends_recorded (joined : List (Name × Ty) × Pool) :
    joined.2.Extends (recorded joined).2 := by
  obtain ⟨_ | ⟨field, fields⟩, next⟩ := joined
  · exact .refl next
  · exact extends_record next (field :: fields)

variable {join : Pool → Ty → Ty → Option Ty × Pool} {pool next : Pool} {x y type : Ty}
  {xs ys : List Ty} {name : Name}

theorem joinElements_cons_of_some (hjoin : join pool x y = (some type, next)) :
    joinElements join pool (x :: xs) (y :: ys) =
      ((joinElements join next xs ys).1.map (type :: ·), (joinElements join next xs ys).2) := by
  rcases htypes : joinElements join next xs ys with ⟨_ | types, last⟩ <;>
    simp only [joinElements, hjoin, htypes, Option.map_none, Option.map_some]

theorem joinElements_cons_of_none (hjoin : join pool x y = (none, next)) :
    joinElements join pool (x :: xs) (y :: ys) = (none, next) := by
  simp only [joinElements, hjoin]

variable {as bs : List (Name × Ty)}

theorem joinFields_cons_of_absent (hfield : fieldType? name bs = none) :
    joinFields join bs pool ((name, x) :: as) = joinFields join bs pool as := by
  simp only [joinFields, hfield]

theorem joinFields_cons_of_some (hfield : fieldType? name bs = some y)
    (hjoin : join pool x y = (some type, next)) :
    joinFields join bs pool ((name, x) :: as) =
      ((name, type) :: (joinFields join bs next as).1, (joinFields join bs next as).2) := by
  simp only [joinFields, hfield, hjoin]

theorem joinFields_cons_of_none (hfield : fieldType? name bs = some y)
    (hjoin : join pool x y = (none, next)) :
    joinFields join bs pool ((name, x) :: as) = joinFields join bs next as := by
  simp only [joinFields, hfield, hjoin]

section Forms

variable {a b : Ty} {depth : Nat} (hab : ¬ pool.isSubtype a b = true)
  (hba : ¬ pool.isSubtype b a = true)
include hab hba

theorem joinWithin_of_tuples (ha : pool.form? a = some (.tuple xs))
    (hb : pool.form? b = some (.tuple ys)) (harity : xs.length = ys.length) :
    joinWithin (depth + 1) pool a b = tupled (joinElements (joinWithin depth) pool xs ys) := by
  simp only [joinWithin, hab, hba, ha, hb, harity, if_true]
  rfl

theorem joinWithin_of_records (ha : pool.form? a = some (.record as))
    (hb : pool.form? b = some (.record bs)) :
    joinWithin (depth + 1) pool a b = recorded (joinFields (joinWithin depth) bs pool as) := by
  simp only [joinWithin, hab, hba, ha, hb]
  rfl

/-- No other two forms are looked into. -/
theorem joinWithin_of_others {aForm bForm : Form} (ha : pool.form? a = some aForm)
    (hb : pool.form? b = some bForm)
    (htuples : ¬ ∃ xs ys, aForm = .tuple xs ∧ bForm = .tuple ys ∧ xs.length = ys.length)
    (hrecords : ¬ ∃ as bs, aForm = .record as ∧ bForm = .record bs) :
    joinWithin (depth + 1) pool a b =
      (if aForm.isNominal && bForm.isNominal then
        (pool.ancestors b).find? (pool.ancestors a).contains else none, pool) := by
  unfold joinWithin
  rw [if_neg hab, if_neg hba, ha, hb]
  split
  · next xs ys haForm hbForm =>
    cases haForm
    cases hbForm
    rw [if_neg fun harity => htuples ⟨xs, ys, rfl, rfl, harity⟩]
    rfl
  · next as bs haForm hbForm =>
    cases haForm
    cases hbForm
    exact absurd ⟨as, bs, rfl, rfl⟩ hrecords
  · next found found' _ _ haForm hbForm =>
    cases haForm
    cases hbForm
    split <;> rfl
  · next hnone => exact (hnone aForm bForm rfl rfl).elim

end Forms

variable (hextends : ∀ (pool : Pool) (a b : Ty), pool.Extends (join pool a b).2)
include hextends

theorem extends_joinElements (pool : Pool) (xs ys : List Ty) :
    pool.Extends (joinElements join pool xs ys).2 := by
  induction xs generalizing pool ys with
  | nil => exact .refl pool
  | cons x xs ih =>
    cases ys with
    | nil => exact .refl pool
    | cons y ys =>
      have hfirst := hextends pool x y
      rcases hjoin : join pool x y with ⟨_ | type, next⟩
      · rw [joinElements_cons_of_none hjoin]
        rwa [hjoin] at hfirst
      · rw [joinElements_cons_of_some hjoin]
        rw [hjoin] at hfirst
        exact hfirst.trans (ih next ys)

theorem extends_joinElements_of_cons (pool : Pool) (x y : Ty) (xs ys : List Ty) :
    (join pool x y).2.Extends (joinElements join pool (x :: xs) (y :: ys)).2 := by
  rcases hjoin : join pool x y with ⟨_ | type, next⟩
  · rw [joinElements_cons_of_none hjoin]
    exact .refl next
  · rw [joinElements_cons_of_some hjoin]
    exact extends_joinElements hextends next xs ys

theorem extends_joinFields (pool : Pool) (as bs : List (Name × Ty)) :
    pool.Extends (joinFields join bs pool as).2 := by
  induction as generalizing pool with
  | nil => exact .refl pool
  | cons field as ih =>
    obtain ⟨name, x⟩ := field
    cases hfield : fieldType? name bs with
    | none =>
      rw [joinFields_cons_of_absent hfield]
      exact ih pool
    | some y =>
      have hfirst := hextends pool x y
      rcases hjoin : join pool x y with ⟨_ | type, next⟩
      · rw [joinFields_cons_of_none hfield hjoin]
        rw [hjoin] at hfirst
        exact hfirst.trans (ih next)
      · rw [joinFields_cons_of_some hfield hjoin]
        rw [hjoin] at hfirst
        exact hfirst.trans (ih next)

theorem extends_joinFields_of_cons (hfield : fieldType? name bs = some y) (pool : Pool) (x : Ty)
    (as : List (Name × Ty)) :
    (join pool x y).2.Extends (joinFields join bs pool ((name, x) :: as)).2 := by
  rcases hjoin : join pool x y with ⟨_ | type, next⟩
  · rw [joinFields_cons_of_none hfield hjoin]
    exact extends_joinFields hextends next as bs
  · rw [joinFields_cons_of_some hfield hjoin]
    exact extends_joinFields hextends next as bs

omit hextends

/-- A join only ever adds entries, even one that fails halfway. -/
theorem extends_joinWithin (depth : Nat) (pool : Pool) (a b : Ty) :
    pool.Extends (joinWithin depth pool a b).2 := by
  induction depth generalizing pool a b with
  | zero => exact .refl pool
  | succ depth ih =>
    unfold joinWithin
    split
    · exact .refl pool
    split
    · exact .refl pool
    split
    · next xs ys _ _ =>
      split
      · exact (extends_joinElements ih pool xs ys).trans (extends_tupled _)
      · exact .refl pool
    · next as bs _ _ => exact (extends_joinFields ih pool as bs).trans (extends_recorded _)
    · split <;> exact .refl pool
    · exact .refl pool

theorem extends_join (pool : Pool) (a b : Ty) : pool.Extends (pool.join a b).2 :=
  extends_joinWithin _ pool a b

theorem extends_joinOnto (pool : Pool) (reached : Ty) (types : List Ty) :
    pool.Extends (pool.joinOnto reached types).2 := by
  induction types generalizing pool reached with
  | nil => exact .refl pool
  | cons first rest ih =>
    have hfirst := extends_join pool reached first
    rcases hresult : pool.join reached first with ⟨_ | joined, next⟩
    · simp only [joinOnto, hresult]
      rwa [hresult] at hfirst
    · simp only [joinOnto, hresult]
      rw [hresult] at hfirst
      exact hfirst.trans (ih next joined)

theorem extends_joinAll (pool : Pool) (types : List Ty) : pool.Extends (pool.joinAll types).2 := by
  cases types with
  | nil => exact .refl pool
  | cons first rest => exact extends_joinOnto pool first rest

end Extends

section Alike

variable {common pool other : Pool} {rename : Ty → Ty} {a b : Ty}
  {join otherJoin : Pool → Ty → Ty → Option Ty × Pool}

/-- Two ways to join are alike on these types, whatever has been entered before. -/
def JoinsAlike (common : Pool) (rename : Ty → Ty)
    (join otherJoin : Pool → Ty → Ty → Option Ty × Pool) (pool : Pool) (xs ys : List Ty) : Prop :=
  ∀ later other : Pool, Twins common rename later other → pool.KeptBy later →
    ∀ x ∈ xs, ∀ y ∈ ys, EndAlike common rename later other (join later x y)
      (otherJoin other (rename x) (rename y))

theorem JoinsAlike.of_subset {xs ys someXs someYs : List Ty} {later : Pool}
    (hjoin : JoinsAlike common rename join otherJoin pool xs ys) (hkept : pool.KeptBy later)
    (hxs : someXs ⊆ xs) (hys : someYs ⊆ ys) :
    JoinsAlike common rename join otherJoin later someXs someYs :=
  fun last other htwins hkept' x hx y hy =>
    hjoin last other htwins (hkept.trans hkept') x (hxs hx) y (hys hy)

theorem mem_of_fieldType? {name : Name} {type : Ty} {fields : List (Name × Ty)}
    (hfield : fieldType? name fields = some type) : (name, type) ∈ fields := by
  suffices h : ∀ (bound : Nat) (fields : List (Name × Ty)),
      fieldTypeWithin? name bound fields = some type → (name, type) ∈ fields from h _ _ hfield
  clear hfield fields
  intro bound
  induction bound with
  | zero => exact nofun
  | succ bound ih =>
    intro fields hfield
    simp only [fieldTypeWithin?] at hfield
    split at hfield
    · cases hfield
    · next field found after hafter =>
      have hlater : (field, found) :: after ⊆ fields := hafter ▸ List.drop_subset _ _
      split at hfield
      · next heq =>
        cases hfield
        exact heq ▸ hlater List.mem_cons_self
      · split at hfield
        · exact List.take_subset _ _ (ih _ hfield)
        · exact hlater (List.mem_cons_of_mem _ (ih _ hfield))

theorem fieldType?_rename (rename : Ty → Ty) (name : Name) (fields : List (Name × Ty)) :
    fieldType? name (HasTypes.rename rename fields) = (fieldType? name fields).map rename := by
  suffices h : ∀ (bound : Nat) (fields : List (Name × Ty)),
      fieldTypeWithin? name bound (fields.map fun field => (field.1, rename field.2)) =
        (fieldTypeWithin? name bound fields).map rename by
    have hlength : (HasTypes.rename rename fields).length = fields.length := List.length_map _
    rw [fieldType?, hlength]
    exact h fields.length fields
  intro bound
  induction bound with
  | zero => exact fun _ => rfl
  | succ bound ih =>
    intro fields
    simp only [fieldTypeWithin?, List.length_map, ← List.map_drop, ← List.map_take]
    cases fields.drop (fields.length / 2) with
    | nil => rfl
    | cons field after =>
      simp only [List.map_cons, ih]
      split
      · rfl
      · split <;> rfl

variable (hextends : ∀ (pool : Pool) (a b : Ty), pool.Extends (join pool a b).2)
  (hextends' : ∀ (pool : Pool) (a b : Ty), pool.Extends (otherJoin pool a b).2)
include hextends hextends'

theorem Twins.endAlike_joinElements (htwins : Twins common rename pool other) {xs ys : List Ty}
    (hjoin : JoinsAlike common rename join otherJoin pool xs ys) :
    EndAlike common rename pool other (joinElements join pool xs ys)
      (joinElements otherJoin other (xs.map rename) (ys.map rename)) := by
  induction xs generalizing pool other ys with
  | nil => exact htwins.endAlike (some ([] : List Ty)) (HasTypes.known_some_iff.mpr nofun)
  | cons x xs ih =>
    cases ys with
    | nil => exact htwins.endAlike (some ([] : List Ty)) (HasTypes.known_some_iff.mpr nofun)
    | cons y ys =>
      have hfirst := hjoin pool other htwins (KeptBy.refl pool) x List.mem_cons_self y
        List.mem_cons_self
      have hkept := (extends_joinElements_of_cons hextends pool x y xs ys).kept
      have hkept' := (extends_joinElements_of_cons hextends' other (rename x) (rename y)
        (xs.map rename) (ys.map rename)).kept
      refine hfirst.andThen hkept hkept' fun halike => ?_
      have hrest := ih halike.twins (hjoin.of_subset halike.kept (List.subset_cons_self x xs)
        (List.subset_cons_self y ys))
      rcases hrun : join pool x y with ⟨result, next⟩
      rcases hrun' : otherJoin other (rename x) (rename y) with ⟨otherResult, otherNext⟩
      rw [hrun, hrun'] at halike hrest
      obtain rfl : otherResult = result.map rename := halike.result
      rw [List.map_cons, List.map_cons]
      cases result with
      | none =>
        rw [joinElements_cons_of_none hrun, joinElements_cons_of_none hrun']
        exact halike.twins.endAlike (none : Option (List Ty)) (HasTypes.known_none _)
      | some type =>
        rw [joinElements_cons_of_some hrun, joinElements_cons_of_some hrun']
        refine hrest.map _ _ ?_ fun hkept hknown types htypes => ?_
        · cases (joinElements join next xs ys).1 <;> rfl
        · obtain ⟨rest, hrest, rfl⟩ := Option.map_eq_some_iff.mp htypes
          exact List.forall_mem_cons.mpr ⟨hkept.contains (halike.known type rfl), hknown rest hrest⟩

theorem Twins.endAlike_joinFields (htwins : Twins common rename pool other)
    {as bs : List (Name × Ty)}
    (hjoin : JoinsAlike common rename join otherJoin pool (as.map Prod.snd) (bs.map Prod.snd)) :
    EndAlike common rename pool other (joinFields join bs pool as)
      (joinFields otherJoin (HasTypes.rename rename bs) other (HasTypes.rename rename as)) := by
  induction as generalizing pool other with
  | nil => exact htwins.endAlike ([] : List (Name × Ty)) nofun
  | cons field as ih =>
    obtain ⟨name, x⟩ := field
    have hsteps : HasTypes.rename rename ((name, x) :: as) =
        (name, rename x) :: HasTypes.rename rename as := rfl
    rw [hsteps]
    have hlookup := fieldType?_rename rename name bs
    cases hfield : fieldType? name bs with
    | none =>
      rw [hfield, Option.map_none] at hlookup
      rw [joinFields_cons_of_absent hfield, joinFields_cons_of_absent hlookup]
      exact ih htwins (hjoin.of_subset (KeptBy.refl pool) (List.subset_cons_self _ _)
        (List.Subset.refl _))
    | some y =>
      rw [hfield, Option.map_some] at hlookup
      have hfirst := hjoin pool other htwins (KeptBy.refl pool) x List.mem_cons_self y
        (List.mem_map.mpr ⟨_, mem_of_fieldType? hfield, rfl⟩)
      have hkept := (extends_joinFields_of_cons hextends hfield pool x as).kept
      have hkept' := (extends_joinFields_of_cons hextends' hlookup other (rename x)
        (HasTypes.rename rename as)).kept
      refine hfirst.andThen hkept hkept' fun halike => ?_
      have hrest := ih halike.twins (hjoin.of_subset halike.kept (List.subset_cons_self _ _)
        (List.Subset.refl _))
      rcases hrun : join pool x y with ⟨result, next⟩
      rcases hrun' : otherJoin other (rename x) (rename y) with ⟨otherResult, otherNext⟩
      rw [hrun, hrun'] at halike hrest
      obtain rfl : otherResult = result.map rename := halike.result
      cases result with
      | none => rwa [joinFields_cons_of_none hfield hrun, joinFields_cons_of_none hlookup hrun']
      | some type =>
        rw [joinFields_cons_of_some hfield hrun, joinFields_cons_of_some hlookup hrun']
        refine hrest.map _ _ rfl fun hkept hknown => ?_
        exact List.forall_mem_cons.mpr ⟨hkept.contains (halike.known type rfl), hknown⟩

omit hextends hextends'

theorem EndAlike.tupled {joined otherJoined : Option (List Ty) × Pool}
    (hjoined : EndAlike common rename pool other joined otherJoined) :
    EndAlike common rename pool other (tupled joined) (tupled otherJoined) := by
  refine hjoined.andThen (extends_tupled joined).kept (extends_tupled otherJoined).kept
    fun halike => ?_
  obtain ⟨result, next⟩ := joined
  obtain ⟨otherResult, otherNext⟩ := otherJoined
  obtain rfl : otherResult = result.map (List.map rename) := halike.result
  cases result with
  | none => exact halike.twins.endAlike (none : Option Ty) (HasTypes.known_none _)
  | some types =>
    exact (halike.twins.endAlike_tuple (halike.known types rfl)).map some some rfl
      fun _ => HasTypes.known_some_iff.mpr

theorem EndAlike.recorded {joined otherJoined : List (Name × Ty) × Pool}
    (hjoined : EndAlike common rename pool other joined otherJoined) :
    EndAlike common rename pool other (recorded joined) (recorded otherJoined) := by
  refine hjoined.andThen (extends_recorded joined).kept (extends_recorded otherJoined).kept
    fun halike => ?_
  obtain ⟨fields, next⟩ := joined
  obtain ⟨otherFields, otherNext⟩ := otherJoined
  obtain rfl : otherFields = HasTypes.rename rename fields := halike.result
  cases fields with
  | nil => exact halike.twins.endAlike (none : Option Ty) (HasTypes.known_none _)
  | cons field fields =>
    exact (halike.twins.endAlike_record halike.known).map some some rfl
      fun _ => HasTypes.known_some_iff.mpr

/-- Declared types have the first common ancestor in both pools. -/
theorem Twins.find?_ancestors (htwins : Twins common rename pool other) (ha : pool.contains a)
    (hb : pool.contains b) :
    (other.ancestors (rename b)).find? (other.ancestors (rename a)).contains =
      ((pool.ancestors b).find? (pool.ancestors a).contains).map rename := by
  have hinjective := htwins.embeds.injective
  rw [htwins.embeds.ancestors_eq htwins.wellFormed htwins.otherWellFormed ha,
    htwins.embeds.ancestors_eq htwins.wellFormed htwins.otherWellFormed hb, List.find?_map]
  congr 2
  funext type
  rw [Bool.eq_iff_iff]
  simp [hinjective.eq_iff]

/-- Joins that look deep enough are alike, however deep each of them looks. -/
theorem Twins.endAlike_joinWithin (htwins : Twins common rename pool other) {depth otherDepth : Nat}
    (ha : pool.contains a) (hb : pool.contains b) (hdepth : a.index < depth)
    (hdepth' : (rename a).index < otherDepth) :
    EndAlike common rename pool other (joinWithin depth pool a b)
      (joinWithin otherDepth other (rename a) (rename b)) := by
  induction depth generalizing pool other a b otherDepth with
  | zero => omega
  | succ depth ih =>
    obtain ⟨otherDepth, rfl⟩ : ∃ rest, otherDepth = rest + 1 := ⟨otherDepth - 1, by omega⟩
    have hembeds := htwins.embeds
    have hpool := htwins.wellFormed
    have hother := htwins.otherWellFormed
    have hsame := hembeds.isSubtype_eq hpool hother ha hb
    have hsame' := hembeds.isSubtype_eq hpool hother hb ha
    by_cases hab : pool.isSubtype a b = true
    · rw [hab] at hsame
      simp only [joinWithin, hab, hsame, if_true]
      exact htwins.endAlike (some b) (HasTypes.known_some_iff.mpr hb)
    by_cases hba : pool.isSubtype b a = true
    · rw [hba] at hsame'
      simp only [joinWithin, hab, hsame, hba, hsame', if_true]
      exact htwins.endAlike (some a) (HasTypes.known_some_iff.mpr ha)
    have hab' : ¬ other.isSubtype (rename a) (rename b) = true := hsame ▸ hab
    have hba' : ¬ other.isSubtype (rename b) (rename a) = true := hsame' ▸ hba
    obtain ⟨aForm, haForm⟩ := exists_form?_of_contains ha
    obtain ⟨bForm, hbForm⟩ := exists_form?_of_contains hb
    -- The parts of `a` are older than `a` in both pools, so the depth left suffices for them.
    have hparts : JoinsAlike common rename (joinWithin depth) (joinWithin otherDepth) pool
        aForm.components bForm.components := by
      intro later otherLater htwins' hkept x hx y hy
      have hx := Form.mem_mentions_of_mem_components hx
      have hy := Form.mem_mentions_of_mem_components hy
      have holder := hpool.older haForm x hx
      have holder' := hother.older (hembeds.renamed haForm) (rename x) (by
        rw [Form.mentions_rename]
        exact List.mem_map.mpr ⟨x, hx, rfl⟩)
      exact ih htwins' (hkept.contains (hpool.contains_of_mem_mentions haForm hx))
        (hkept.contains (hpool.contains_of_mem_mentions hbForm hy)) (by omega) (by omega)
    by_cases htuples : ∃ xs ys, aForm = .tuple xs ∧ bForm = .tuple ys ∧ xs.length = ys.length
    · obtain ⟨xs, ys, rfl, rfl, harity⟩ := htuples
      rw [joinWithin_of_tuples hab hba haForm hbForm harity, joinWithin_of_tuples hab' hba'
        (hembeds.renamed haForm) (hembeds.renamed hbForm) (by simpa using harity)]
      exact (htwins.endAlike_joinElements (extends_joinWithin depth) (extends_joinWithin otherDepth)
        hparts).tupled
    by_cases hrecords : ∃ as bs, aForm = .record as ∧ bForm = .record bs
    · obtain ⟨as, bs, rfl, rfl⟩ := hrecords
      rw [joinWithin_of_records hab hba haForm hbForm, joinWithin_of_records hab' hba'
        (hembeds.renamed haForm) (hembeds.renamed hbForm)]
      exact (htwins.endAlike_joinFields (extends_joinWithin depth) (extends_joinWithin otherDepth)
        hparts).recorded
    · rw [joinWithin_of_others hab hba haForm hbForm htuples hrecords,
        joinWithin_of_others hab' hba' (hembeds.renamed haForm) (hembeds.renamed hbForm)
        (htuples ∘ Form.tuples_of_renamed) (hrecords ∘ Form.records_of_renamed), Form.isNominal_rename, Form.isNominal_rename]
      split
      · next hnominal =>
        rw [htwins.find?_ancestors ha hb]
        refine htwins.endAlike ((pool.ancestors b).find? (pool.ancestors a).contains) ?_
        intro ancestor hfind
        have hmem := hpool.mem_ancestors_iff.mp (List.mem_of_find?_eq_some hfind)
        rcases hmem with rfl | hdescends
        · exact hb
        · obtain ⟨form, hform, -⟩ := isNominal_iff.mp (hpool.isNominal_of_descends hdescends).2
          exact contains_of_form? hform
      · exact htwins.endAlike (none : Option Ty) (HasTypes.known_none _)

/-- The join looks deep enough in either pool. -/
theorem Twins.endAlike_join (htwins : Twins common rename pool other) (ha : pool.contains a)
    (hb : pool.contains b) :
    EndAlike common rename pool other (pool.join a b) (other.join (rename a) (rename b)) :=
  htwins.endAlike_joinWithin ha hb (index_lt_join_depth ha)
    (index_lt_join_depth (htwins.embeds.contains ha))

theorem Twins.endAlike_joinOnto (htwins : Twins common rename pool other) {reached : Ty}
    {types : List Ty} (hreached : pool.contains reached) (htypes : HasTypes.Known pool types) :
    EndAlike common rename pool other (pool.joinOnto reached types)
      (other.joinOnto (rename reached) (types.map rename)) := by
  induction types generalizing pool other reached with
  | nil => exact htwins.endAlike (some reached) (HasTypes.known_some_iff.mpr hreached)
  | cons first rest ih =>
    have hfirst := htwins.endAlike_join hreached (htypes first List.mem_cons_self)
    rcases hrun : pool.join reached first with ⟨result, next⟩
    rcases hrun' : other.join (rename reached) (rename first) with ⟨otherResult, otherNext⟩
    rw [hrun, hrun'] at hfirst
    simp only [List.map_cons, joinOnto, hrun, hrun']
    refine hfirst.andThen ?_ ?_ fun halike => ?_
    · cases result with
      | none => exact KeptBy.refl next
      | some joined => exact (extends_joinOnto next joined rest).kept
    · cases otherResult with
      | none => exact KeptBy.refl otherNext
      | some joined => exact (extends_joinOnto otherNext joined _).kept
    · obtain rfl : otherResult = result.map rename := halike.result
      cases result with
      | none => exact halike.twins.endAlike (none : Option Ty) (HasTypes.known_none _)
      | some joined =>
        exact ih halike.twins (halike.known joined rfl) fun type htype =>
          halike.kept.contains (htypes type (List.mem_cons_of_mem first htype))

/-- Joining known types gives the same type in either pool, and adds the same types
    to both. -/
theorem Twins.endAlike_joinAll (htwins : Twins common rename pool other) {types : List Ty}
    (htypes : HasTypes.Known pool types) :
    EndAlike common rename pool other (pool.joinAll types)
      (other.joinAll (HasTypes.rename rename types)) := by
  cases types with
  | nil => exact htwins.endAlike (none : Option Ty) (HasTypes.known_none _)
  | cons first rest =>
    exact htwins.endAlike_joinOnto (htypes first List.mem_cons_self) fun type htype =>
      htypes type (List.mem_cons_of_mem first htype)

end Alike

end Pool

end OrPattern
