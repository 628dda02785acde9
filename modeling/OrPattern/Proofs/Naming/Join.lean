import OrPattern.Proofs.Join.Alike
import OrPattern.Proofs.Naming.Pool

namespace OrPattern

open HasNames (withNames)

variable {names : Name → Name} (hnames : Function.Injective names)

section Fields

include hnames

/-- A field is found under its new name, wherever it stands then. -/
theorem fieldType?_withNames {fields : List (Name × Ty)}
    (hfields : AscendingByName Prod.fst fields) (name : Name) :
    fieldType? (names name) (fieldsWithNames names fields) = fieldType? name fields := by
  refine Option.ext fun type => ?_
  rw [fieldType?_eq_some_iff hfields,
    fieldType?_eq_some_iff (ascending_fieldsWithNames names fields),
    (fieldsWithNames_perm hnames hfields).mem_iff, mem_withNames_iff hnames]

theorem Form.isBelow_withNames {below : Ty → Ty → Bool} {sub sup : Form} (hsub : sub.Ascending)
    (hsup : sup.Ascending) :
    (withNames names sub).isBelow below (withNames names sup) = sub.isBelow below sup := by
  cases sub with
  | record xs =>
    cases sup with
    | record ys =>
      have hperm := fieldsWithNames_perm hnames (hsup rfl)
      have hfield : (withNames names ys).all (fun field =>
            (fieldType? field.1 (fieldsWithNames names xs)).any fun x => below x field.2) =
          ys.all fun field => (fieldType? field.1 xs).any fun x => below x field.2 := by
        simp only [withNames, List.all_map, Function.comp_def, id_eq,
          fieldType?_withNames hnames (hsub rfl)]
      have hempty : (fieldsWithNames names ys).isEmpty = ys.isEmpty := by
        rw [hperm.isEmpty_eq]
        cases ys <;> rfl
      exact congrArg₂ (fun empty all => !empty && all) hempty (hperm.all_eq.trans hfield)
    | _ => rfl
  | _ => cases sup <;> rfl

end Fields

namespace Pool

variable {pool : Pool} {a b type : Ty} {depth : Nat}

theorem ancestors_withNames (names : Name → Name) (pool : Pool) (type : Ty) :
    (withNames names pool).ancestors type = pool.ancestors type := by
  have hwithin : ∀ (bound : Nat) (type : Ty),
      (withNames names pool).ancestorsWithin bound type = pool.ancestorsWithin bound type := by
    intro bound
    induction bound with
    | zero => exact fun _ => rfl
    | succ bound ih =>
      intro type
      simp only [ancestorsWithin, parent?_withNames, ih]
  exact hwithin type.index type

variable (hpool : pool.WellFormed)
include hnames hpool

theorem isSubtype_withNames (sub sup : Ty) :
    (withNames names pool).isSubtype sub sup = pool.isSubtype sub sup := by
  have hwithin : ∀ (depth : Nat) (sub sup : Ty),
      (withNames names pool).isSubtypeWithin depth sub sup =
        pool.isSubtypeWithin depth sub sup := by
    intro depth
    induction depth with
    | zero => exact fun _ _ => rfl
    | succ depth ih =>
      intro sub sup
      have hbelow : (withNames names pool).isSubtypeWithin depth = pool.isSubtypeWithin depth :=
        funext fun low => funext (ih low)
      simp only [isSubtypeWithin, flags_withNames, form?_withNames, ancestors_withNames, hbelow]
      cases hsub : pool.form? sub with
      | none => rfl
      | some subForm =>
        cases hsup : pool.form? sup with
        | none => rfl
        | some supForm =>
          simp only [Option.map_some, Form.isBelow_withNames hnames
            (hpool.ascending_of_form? hsub) (hpool.ascending_of_form? hsup)]
  simp only [isSubtype, size_withNames, hwithin]

theorem horizon_withNames : (withNames names pool).horizon = pool.horizon := by
  have hparts : ((withNames names pool).entries.toList.flatMap fun entry =>
      entry.form.components).Perm
        (pool.entries.toList.flatMap fun entry => entry.form.components) := by
    simp only [withNames, Array.toList_map, List.flatMap_map]
    exact List.Perm.flatMap_left _ fun entry hmem =>
      Form.components_withNames hnames (hpool.ascending_of_mem hmem)
  have : RightCommutative fun (bound : Nat) (type : Ty) => max bound (type.index + 1) :=
    ⟨fun bound one other => Nat.max_right_comm ..⟩
  rw [horizon, hparts.foldl_eq, size_withNames]
  rfl

omit hnames hpool

section Parts

variable {join otherJoin : Pool → Ty → Ty → Option Ty × Pool} {other : Pool}
  (hextends : ∀ (pool : Pool) (a b : Ty), pool.Extends (join pool a b).2)

/-- What becomes of a field where joins enter nothing. -/
def joinedField (join : Pool → Ty → Ty → Option Ty × Pool) (bs : List (Name × Ty)) (pool : Pool)
    (field : Name × Ty) : Option (Name × Ty) :=
  (fieldType? field.1 bs).bind fun y => (join pool field.2 y).1.map (field.1, ·)

/-- The joins of these fields enter nothing. -/
def FieldsStill (join : Pool → Ty → Ty → Option Ty × Pool) (bs : List (Name × Ty)) (pool : Pool)
    (as : List (Name × Ty)) : Prop :=
  ∀ field ∈ as, ∀ y, fieldType? field.1 bs = some y → (join pool field.2 y).2 = pool

theorem joinFields_of_still {as bs : List (Name × Ty)} (hstill : FieldsStill join bs pool as) :
    joinFields join bs pool as = (as.filterMap (joinedField join bs pool), pool) := by
  induction as with
  | nil => rfl
  | cons field as ih =>
    obtain ⟨name, x⟩ := field
    obtain ⟨hfirst, hrest⟩ := List.forall_mem_cons.mp hstill
    have ih := ih hrest
    cases hfield : fieldType? name bs with
    | none =>
      rw [joinFields_cons_of_absent hfield, ih, List.filterMap_cons, joinedField, hfield]
      rfl
    | some y =>
      have hfirst := hfirst y hfield
      rcases hjoin : join pool x y with ⟨_ | type, next⟩
      · obtain rfl : next = pool := by rwa [hjoin] at hfirst
        rw [joinFields_cons_of_none hfield hjoin, ih, List.filterMap_cons, joinedField, hfield]
        simp only [Option.bind_some, hjoin, Option.map_none]
      · obtain rfl : next = pool := by rwa [hjoin] at hfirst
        rw [joinFields_cons_of_some hfield hjoin, ih, List.filterMap_cons, joinedField, hfield]
        simp only [Option.bind_some, hjoin, Option.map_some]

theorem joinFields_sublist (join : Pool → Ty → Ty → Option Ty × Pool) (bs : List (Name × Ty))
    (pool : Pool) (as : List (Name × Ty)) :
    ((joinFields join bs pool as).1.map Prod.fst).Sublist (as.map Prod.fst) := by
  induction as generalizing pool with
  | nil => exact .refl _
  | cons field as ih =>
    obtain ⟨name, x⟩ := field
    cases hfield : fieldType? name bs with
    | none =>
      rw [joinFields_cons_of_absent hfield]
      exact (ih pool).cons name
    | some y =>
      rcases hjoin : join pool x y with ⟨_ | type, next⟩
      · rw [joinFields_cons_of_none hfield hjoin]
        exact (ih next).cons name
      · rw [joinFields_cons_of_some hfield hjoin]
        exact (ih next).cons_cons name

include hextends

theorem fieldsStill_of_joinFields {as bs : List (Name × Ty)}
    (hstill : (joinFields join bs pool as).2 = pool) : FieldsStill join bs pool as := by
  induction as with
  | nil => exact nofun
  | cons field as ih =>
    obtain ⟨name, x⟩ := field
    cases hfield : fieldType? name bs with
    | none =>
      rw [joinFields_cons_of_absent hfield] at hstill
      refine List.forall_mem_cons.mpr ⟨fun y hy => ?_, ih hstill⟩
      cases hfield.symm.trans hy
    | some y =>
      have hfirst : (join pool x y).2 = pool :=
        (hextends pool x y).still (extends_joinFields_of_cons hextends hfield pool x as) hstill
      refine List.forall_mem_cons.mpr ⟨fun found hfound => ?_, ih ?_⟩
      · cases hfield.symm.trans hfound
        exact hfirst
      · rcases hjoin : join pool x y with ⟨_ | type, next⟩
        · obtain rfl : next = pool := by rwa [hjoin] at hfirst
          rwa [joinFields_cons_of_none hfield hjoin] at hstill
        · obtain rfl : next = pool := by rwa [hjoin] at hfirst
          rwa [joinFields_cons_of_some hfield hjoin] at hstill

variable (hfollows : ∀ x y, (join pool x y).2 = pool →
  otherJoin other x y = ((join pool x y).1, other))
include hfollows

theorem joinElements_follows {xs ys : List Ty} (hstill : (joinElements join pool xs ys).2 = pool) :
    joinElements otherJoin other xs ys = ((joinElements join pool xs ys).1, other) := by
  induction xs generalizing ys with
  | nil => rfl
  | cons x xs ih =>
    cases ys with
    | nil => rfl
    | cons y ys =>
      have hfirst : (join pool x y).2 = pool := (hextends pool x y).still
        (extends_joinElements_of_cons hextends pool x y xs ys) hstill
      have hother := hfollows x y hfirst
      rcases hjoin : join pool x y with ⟨_ | type, next⟩ <;> rw [hjoin] at hfirst hother <;>
        obtain rfl : next = pool := hfirst
      · rw [joinElements_cons_of_none hjoin, joinElements_cons_of_none hother]
      · rw [joinElements_cons_of_some hjoin] at hstill
        rw [joinElements_cons_of_some hjoin, joinElements_cons_of_some hother, ih hstill]

/-- The fields of a join are joined in another order, each as before. -/
theorem joinFields_follows (hnames : Function.Injective names) {as bs : List (Name × Ty)}
    (has : AscendingByName Prod.fst as) (hbs : AscendingByName Prod.fst bs)
    (hstill : (joinFields join bs pool as).2 = pool) :
    ∃ fields, joinFields otherJoin (fieldsWithNames names bs) other (fieldsWithNames names as) =
        (fields, other) ∧ fields.Perm (withNames names (joinFields join bs pool as).1) := by
  have hfields := fieldsStill_of_joinFields hextends hstill
  have hperm := fieldsWithNames_perm hnames has
  have hother : ∀ field ∈ as,
      joinedField otherJoin (fieldsWithNames names bs) other (withNames names field) =
        (joinedField join bs pool field).map (withNames names) := by
    rintro ⟨name, x⟩ hmem
    simp only [joinedField, withNames, fieldType?_withNames hnames hbs, id_eq]
    cases hfield : fieldType? name bs with
    | none => rfl
    | some y =>
      simp only [Option.bind_some, hfollows x y (hfields (name, x) hmem y hfield), Option.map_map]
      rfl
  have hotherStill : FieldsStill otherJoin (fieldsWithNames names bs) other
      (fieldsWithNames names as) := by
    intro field hmem y hy
    obtain ⟨⟨name, x⟩, hold, rfl⟩ := List.mem_map.mp (hperm.mem_iff.mp hmem)
    simp only [withNames, fieldType?_withNames hnames hbs] at hy
    exact congrArg Prod.snd (hfollows x y (hfields (name, x) hold y hy))
  refine ⟨_, joinFields_of_still hotherStill, ?_⟩
  rw [joinFields_of_still hfields]
  refine (hperm.filterMap _).trans (.of_eq ?_)
  simp only [withNames, List.filterMap_map, List.map_filterMap]
  exact List.filterMap_congr hother

end Parts

section Lockstep

include hnames

theorem tupled_withNames (hpool : pool.WellFormed) (types : Option (List Ty)) :
    tupled (types, withNames names pool) =
      ((tupled (types, pool)).1, withNames names (tupled (types, pool)).2) := by
  cases types with
  | none => rfl
  | some types => simp only [tupled, tuple_withNames hnames hpool]

theorem recorded_withNames (hpool : pool.WellFormed) {fields others : List (Name × Ty)}
    (hperm : others.Perm (withNames names fields)) (hnodup : (fields.map Prod.fst).Nodup) :
    recorded (others, withNames names pool) =
      ((recorded (fields, pool)).1, withNames names (recorded (fields, pool)).2) := by
  have hrenamed : (others.map Prod.fst).Nodup := (hperm.map Prod.fst).nodup_iff.mpr
    (nodup_map_change hnames (withNames names) (fun _ => rfl) hnodup)
  have hsame : (withNames names pool).record others =
      (withNames names pool).record (withNames names fields) :=
    congrArg (fun sorted => Pool.intern _ (.record sorted)) (sortByName_congr hperm hrenamed)
  have hrecord := record_withNames hnames hpool fields
  cases fields with
  | nil =>
    obtain rfl : others = [] := List.perm_nil.mp hperm
    rfl
  | cons field rest =>
    obtain ⟨other, rest', rfl⟩ : ∃ other rest', others = other :: rest' :=
      List.exists_cons_of_ne_nil fun hnil => by
        subst hnil
        cases List.nil_perm.mp hperm
    simp only [recorded, hsame, hrecord]

variable (hpool : pool.WellFormed)
include hpool

section Structural

variable (hfollows : ∀ x y, (joinWithin depth pool x y).2 = pool →
  joinWithin depth (withNames names pool) x y =
    ((joinWithin depth pool x y).1, withNames names pool))
include hfollows

theorem joinTuples_withNames {xs ys : List Ty}
    (hstill : (tupled (joinElements (joinWithin depth) pool xs ys)).2 = pool) :
    tupled (joinElements (joinWithin depth) (withNames names pool) xs ys) =
      ((tupled (joinElements (joinWithin depth) pool xs ys)).1, withNames names pool) := by
  have helements := (extends_joinElements (extends_joinWithin depth) pool xs ys).still
    (extends_tupled _) hstill
  rw [joinElements_follows (extends_joinWithin depth) hfollows helements,
    tupled_withNames hnames hpool]
  rw [← Prod.mk.eta (p := joinElements (joinWithin depth) pool xs ys), helements] at hstill ⊢
  exact Prod.ext rfl (congrArg (withNames names) hstill)

theorem joinRecords_withNames {as bs : List (Name × Ty)} (has : AscendingByName Prod.fst as)
    (hbs : AscendingByName Prod.fst bs)
    (hstill : (recorded (joinFields (joinWithin depth) bs pool as)).2 = pool) :
    recorded (joinFields (joinWithin depth) (fieldsWithNames names bs) (withNames names pool)
        (fieldsWithNames names as)) =
      ((recorded (joinFields (joinWithin depth) bs pool as)).1, withNames names pool) := by
  have hfields := (extends_joinFields (extends_joinWithin depth) pool as bs).still
    (extends_recorded _) hstill
  obtain ⟨fields, hother, hperm⟩ := joinFields_follows (extends_joinWithin depth) hfollows hnames
    has hbs hfields
  have hnodup := has.nodup.sublist (joinFields_sublist (joinWithin depth) bs pool as)
  rw [hother, recorded_withNames hnames hpool hperm hnodup]
  rw [← Prod.mk.eta (p := joinFields (joinWithin depth) bs pool as), hfields] at hstill ⊢
  exact Prod.ext rfl (congrArg (withNames names) hstill)

end Structural

/-- A join that enters nothing has the same result under other names. -/
theorem joinWithin_withNames (hstill : (joinWithin depth pool a b).2 = pool) :
    joinWithin depth (withNames names pool) a b =
      ((joinWithin depth pool a b).1, withNames names pool) := by
  induction depth generalizing a b with
  | zero => rfl
  | succ depth ih =>
    have hab := isSubtype_withNames hnames hpool a b
    have hba := isSubtype_withNames hnames hpool b a
    have hform := form?_withNames names pool
    by_cases hbelow : pool.isSubtype a b
    · simp only [joinWithin, hab, hbelow, if_true]
    by_cases habove : pool.isSubtype b a
    · simp only [joinWithin, hab, hbelow, hba, habove, if_true, Bool.false_eq_true, if_false]
    have hbelow' : ¬ (withNames names pool).isSubtype a b := by rwa [hab]
    have habove' : ¬ (withNames names pool).isSubtype b a := by rwa [hba]
    cases ha : pool.form? a with
    | none =>
      simp only [joinWithin, hbelow, habove, hbelow', habove', hform, ha, Option.map_none]
      rfl
    | some aForm =>
      cases hb : pool.form? b with
      | none =>
        simp only [joinWithin, hbelow, habove, hbelow', habove', hform, ha, hb, Option.map_none]
        cases aForm <;> rfl
      | some bForm =>
        have ha' := (hform a).trans (congrArg (Option.map (withNames names)) ha)
        have hb' := (hform b).trans (congrArg (Option.map (withNames names)) hb)
        by_cases htuples : ∃ xs ys, aForm = .tuple xs ∧ bForm = .tuple ys ∧ xs.length = ys.length
        · obtain ⟨xs, ys, rfl, rfl, harity⟩ := htuples
          rw [joinWithin_of_tuples hbelow habove ha hb harity] at hstill ⊢
          rw [joinWithin_of_tuples hbelow' habove' ha' hb' harity]
          exact joinTuples_withNames hnames hpool (fun _ _ => ih) hstill
        by_cases hrecords : ∃ as bs, aForm = .record as ∧ bForm = .record bs
        · obtain ⟨as, bs, rfl, rfl⟩ := hrecords
          rw [joinWithin_of_records hbelow habove ha hb] at hstill ⊢
          rw [joinWithin_of_records hbelow' habove' ha' hb']
          exact joinRecords_withNames hnames hpool (fun _ _ => ih) (hpool.ascending ha)
            (hpool.ascending hb) hstill
        rw [joinWithin_of_others hbelow habove ha hb htuples hrecords,
          joinWithin_of_others hbelow' habove' ha' hb']
        · simp only [Form.isNominal_withNames, ancestors_withNames]
        · rintro ⟨xs, ys, haForm, hbForm, harity⟩
          cases aForm <;> cases haForm
          cases bForm <;> cases hbForm
          exact htuples ⟨_, _, rfl, rfl, harity⟩
        · rintro ⟨as, bs, haForm, hbForm⟩
          cases aForm <;> cases haForm
          cases bForm <;> cases hbForm
          exact hrecords ⟨_, _, rfl, rfl⟩

theorem join_withNames (hstill : (pool.join a b).2 = pool) :
    (withNames names pool).join a b = ((pool.join a b).1, withNames names pool) := by
  rw [join, horizon_withNames hnames hpool]
  exact joinWithin_withNames hnames hpool hstill

theorem joinOnto_withNames {reached : Ty} {types : List Ty}
    (hstill : (pool.joinOnto reached types).2 = pool) :
    (withNames names pool).joinOnto reached types =
      ((pool.joinOnto reached types).1, withNames names pool) := by
  induction types generalizing reached with
  | nil => rfl
  | cons first rest ih =>
    rcases hjoin : pool.join reached first with ⟨_ | joined, next⟩
    · simp only [joinOnto, hjoin] at hstill ⊢
      subst hstill
      have hother := join_withNames hnames hpool (congrArg Prod.snd hjoin)
      rw [hjoin] at hother
      simp only [hother]
    · simp only [joinOnto, hjoin] at hstill ⊢
      obtain rfl : next = pool := by
        have hfirst := extends_join pool reached first
        rw [hjoin] at hfirst
        exact hfirst.still (extends_joinOnto next joined rest) hstill
      have hother := join_withNames hnames hpool (congrArg Prod.snd hjoin)
      rw [hjoin] at hother
      simp only [hother, ih hstill]

theorem joinAll_withNames {types : List Ty} (hstill : (pool.joinAll types).2 = pool) :
    (withNames names pool).joinAll types = ((pool.joinAll types).1, withNames names pool) := by
  cases types with
  | nil => rfl
  | cons first rest => exact joinOnto_withNames hnames hpool hstill

end Lockstep

end Pool

end OrPattern
