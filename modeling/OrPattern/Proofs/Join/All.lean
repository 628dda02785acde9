import OrPattern.Proofs.Join.Least
import OrPattern.Ty.Growth

namespace OrPattern

namespace Pool

variable {pool later start : Pool} {a b : Ty} {types : List Ty}

theorem size_le_horizon (pool : Pool) : pool.size ≤ pool.horizon := by
  suffices h : ∀ (parts : List Ty) (bound : Nat),
      bound ≤ parts.foldl (fun bound type => max bound (type.index + 1)) bound from h _ _
  intro parts
  induction parts with
  | nil => exact fun bound => Nat.le_refl bound
  | cons part parts ih => exact fun bound => Nat.le_trans (Nat.le_max_left _ _) (ih _)

/-- The depth that a join starts with is above every number given out. -/
theorem index_lt_join_depth (ha : pool.contains a) :
    a.index < pool.horizon * pool.horizon * pool.horizon + 1 := by
  have hsize : a.index < pool.horizon :=
    Nat.lt_of_lt_of_le (contains_iff.mp ha) pool.size_le_horizon
  have hcube : pool.horizon ≤ pool.horizon * pool.horizon * pool.horizon := by
    rw [Nat.mul_assoc]
    exact Nat.le_mul_of_pos_right _ (Nat.mul_pos (by omega) (by omega))
  omega

/-- The join finds the least type above both, or there is none above both. -/
theorem WellFormed.joinsTo_join (hpool : pool.WellFormed) (ha : pool.contains a)
    (hb : pool.contains b) : pool.JoinsTo (Pair a b) (pool.join a b) :=
  hpool.joinsTo_joinWithin ha hb (index_lt_join_depth ha)

/-- Joining onto the least type above some types keeps it the least above all. -/
theorem WellFormed.joinsTo_joinOnto (hpool : pool.WellFormed) {before : Ty → Prop} {reached : Ty}
    (hreached : pool.contains reached) (hleast : pool.LeastAbove before reached)
    (hknown : ∀ type ∈ types, pool.contains type) :
    pool.JoinsTo (fun type => before type ∨ type ∈ types) (pool.joinOnto reached types) := by
  induction types generalizing pool before reached with
  | nil =>
    refine .found hpool hreached (hleast.congr fun type => ?_)
    simp
  | cons first rest ih =>
    have hjoin := hpool.joinsTo_join hreached (hknown first List.mem_cons_self)
    rcases hresult : pool.join reached first with ⟨result, next⟩
    rw [hresult] at hjoin
    have hkept : pool.KeptBy next := hjoin.kept
    have hleast := hleast.mono hkept
    have hsplit : ∀ type, (before type ∨ type = first) ∨ type ∈ rest ↔
        before type ∨ type ∈ first :: rest := fun type => by rw [List.mem_cons, or_assoc]
    cases result with
    | none =>
      simp only [joinOnto, hresult]
      refine ⟨hjoin.wellFormed, hkept, nofun, fun _ later hlater hkept' bound habove => ?_⟩
      refine hleast.noneAbove_extend (hjoin.noBound rfl) later hlater hkept' bound fun type htype => ?_
      exact habove type ((hsplit type).mp (.inl htype))
    | some joined =>
      obtain ⟨hjoined, hpair⟩ := hjoin.least rfl
      simp only [joinOnto, hresult]
      refine ((ih hjoin.wellFormed hjoined (hleast.extend hpair) fun type htype => ?_).congr
        hsplit).after hkept
      exact hkept.contains (hknown type (List.mem_cons_of_mem first htype))

theorem WellFormed.joinsTo_joinAll (hpool : pool.WellFormed) (hnonempty : types ≠ [])
    (hknown : ∀ type ∈ types, pool.contains type) :
    pool.JoinsTo (· ∈ types) (pool.joinAll types) := by
  cases types with
  | nil => exact absurd rfl hnonempty
  | cons first rest =>
    refine (hpool.joinsTo_joinOnto (hknown first List.mem_cons_self)
      (leastAbove_singleton pool first) fun type htype => ?_).congr fun type => List.mem_cons.symm
    exact hknown type (List.mem_cons_of_mem first htype)

/-- The join of known types fails only if nothing can ever be above all of
    them. -/
theorem WellFormed.joinAll_eq_none_iff (hpool : pool.WellFormed) (hnonempty : types ≠ [])
    (hknown : ∀ type ∈ types, pool.contains type) :
    (pool.joinAll types).1 = none ↔ pool.NoneAbove (· ∈ types) := by
  have hjoins := hpool.joinsTo_joinAll hnonempty hknown
  constructor
  · intro hnone
    exact (hjoins.noBound hnone).of_later hpool hjoins.wellFormed hjoins.kept hknown
  · intro hnone
    cases hresult : (pool.joinAll types).1 with
    | none => rfl
    | some bound =>
      have hleast := (hjoins.least hresult).2
      exact absurd (hnone.mono hjoins.kept) (hleast.not_noneAbove hjoins.wellFormed)

/-- The order of the types is of no account to their join, once what the first join
    entered is there. -/
theorem WellFormed.joinAll_eq_of_perm {others : List Ty} (hpool : pool.WellFormed)
    (hlater : later.WellFormed) (hknown : ∀ type ∈ types, pool.contains type)
    (hperm : others.Perm types) (hkept : (pool.joinAll types).2.KeptBy later) :
    (later.joinAll others).1 = (pool.joinAll types).1 := by
  cases types with
  | nil =>
    rw [hperm.eq_nil]
    rfl
  | cons first rest =>
    have hjoins := hpool.joinsTo_joinAll (List.cons_ne_nil first rest) hknown
    have hold : pool.KeptBy later := KeptBy.trans hjoins.kept hkept
    have hnonempty : others ≠ [] := by
      rintro rfl
      exact List.cons_ne_nil first rest hperm.symm.eq_nil
    have hagain := hlater.joinsTo_joinAll hnonempty fun type htype =>
      hold.contains (hknown type (hperm.mem_iff.mp htype))
    exact hjoins.result_eq hkept (hagain.congr fun type => hperm.mem_iff)

/-- Growth keeps a pool well formed and its entries in place. -/
theorem Grows.keeps (hgrows : Grows start pool) (hstart : start.WellFormed) :
    pool.WellFormed ∧ start.KeptBy pool := by
  induction hgrows with
  | refl => exact ⟨hstart, KeptBy.refl start⟩
  | declareClass _ name parent known ih =>
    exact ⟨ih.1.declareClass name known, ih.2.trans (keptBy_declareClass _ name parent)⟩
  | declareEnum _ name parent variants known payloads ih =>
    exact ⟨ih.1.declareEnum name known payloads,
      ih.2.trans (keptBy_declareEnum _ name parent variants)⟩
  | tuple _ elements known ih => exact ⟨ih.1.tuple known, ih.2.trans (keptBy_tuple _ elements)⟩
  | record _ fields known ih => exact ⟨ih.1.record known, ih.2.trans (keptBy_record _ fields)⟩
  | join _ a b left right ih =>
    have hjoin := ih.1.joinsTo_join left right
    exact ⟨hjoin.wellFormed, ih.2.trans hjoin.kept⟩

theorem Grows.trans {last : Pool} (hstart : Grows start pool) (hgrows : Grows pool last) :
    Grows start last := by
  induction hgrows with
  | refl => exact hstart
  | declareClass _ name parent known ih => exact ih.declareClass name parent known
  | declareEnum _ name parent variants known payloads ih =>
    exact ih.declareEnum name parent variants known payloads
  | tuple _ elements known ih => exact ih.tuple elements known
  | record _ fields known ih => exact ih.record fields known
  | join _ a b left right ih => exact ih.join a b left right

theorem Grows.joinOnto {reached : Ty} (hgrows : Grows start pool) (hpool : pool.WellFormed)
    (hreached : pool.contains reached) (hknown : ∀ type ∈ types, pool.contains type) :
    Grows start (pool.joinOnto reached types).2 := by
  induction types generalizing pool reached with
  | nil => exact hgrows
  | cons first rest ih =>
    have hfirst := hknown first List.mem_cons_self
    have hnext := hgrows.join reached first hreached hfirst
    have hjoin := hpool.joinsTo_join hreached hfirst
    rcases hresult : pool.join reached first with ⟨result, next⟩
    rw [hresult] at hnext hjoin
    cases result with
    | none => simpa only [Pool.joinOnto, hresult] using hnext
    | some joined =>
      simp only [Pool.joinOnto, hresult]
      refine ih hnext hjoin.wellFormed (hjoin.least rfl).1 fun type htype => ?_
      exact KeptBy.contains hjoin.kept (hknown type (List.mem_cons_of_mem first htype))

theorem Grows.joinAll (hgrows : Grows start pool) (hpool : pool.WellFormed)
    (hknown : ∀ type ∈ types, pool.contains type) : Grows start (pool.joinAll types).2 := by
  cases types with
  | nil => exact hgrows
  | cons first rest =>
    exact hgrows.joinOnto hpool (hknown first List.mem_cons_self) fun type htype =>
      hknown type (List.mem_cons_of_mem first htype)

theorem Reachable.wellFormed (hpool : pool.Reachable) : pool.WellFormed :=
  (Grows.keeps hpool wellFormed_initial).1

/-- The join of types is the least type above all of them, in its own pool and in
    every later one; it fails only if no pool that grows out of this one has a
    type above all. It depends on which types they are, but neither on their
    order nor on how often each occurs. -/
theorem joinAll_least_upper_bound (hpool : pool.Reachable) (hnonempty : types ≠ [])
    (hknown : ∀ type ∈ types, pool.contains type) :
    Grows pool (pool.joinAll types).2 ∧
    (∀ bound, (pool.joinAll types).1 = some bound →
      (pool.joinAll types).2.contains bound ∧
      ∀ later, Grows (pool.joinAll types).2 later →
        (∀ type ∈ types, later.isSubtype type bound = true) ∧
        ∀ other, (∀ type ∈ types, later.isSubtype type other = true) →
          later.isSubtype bound other = true) ∧
    ((pool.joinAll types).1 = none → ∀ later, Grows pool later → ∀ bound,
      ¬ ∀ type ∈ types, later.isSubtype type bound = true) ∧
    ∀ others : List Ty, (∀ type, type ∈ others ↔ type ∈ types) →
      (pool.joinAll others).1.isSome = (pool.joinAll types).1.isSome ∧
      ∀ later, Grows (pool.joinAll types).2 later →
        (later.joinAll others).1 = (pool.joinAll types).1 := by
  have hwell := hpool.wellFormed
  have hjoins := hwell.joinsTo_joinAll hnonempty hknown
  have habove : ∀ {later : Pool}, later.WellFormed → ∀ bound,
      (∀ type ∈ types, later.isSubtype type bound = true) ↔ later.Above (· ∈ types) bound :=
    fun hlater bound => forall₂_congr fun _ _ => hlater.isSubtype_iff
  refine ⟨(Grows.refl pool).joinAll hwell hknown,
    fun bound hbound => ⟨(hjoins.least hbound).1, fun later hgrows => ?_⟩,
    fun hnone later hgrows bound hbelow => ?_, fun others hothers => ?_⟩
  · obtain ⟨hlater, hkept⟩ := hgrows.keeps hjoins.wellFormed
    obtain ⟨hupper, hlow⟩ := (hjoins.least hbound).2 later hlater hkept
    refine ⟨(habove hlater bound).mpr hupper, fun other hother => ?_⟩
    exact hlater.isSubtype_iff.mpr (hlow other ((habove hlater other).mp hother))
  · obtain ⟨hlater, hkept⟩ := hgrows.keeps hwell
    have hnoneAbove := (hwell.joinAll_eq_none_iff hnonempty hknown).mp hnone
    exact hnoneAbove later hlater hkept bound ((habove hlater bound).mp hbelow)
  · have hnonempty' : others ≠ [] := by
      obtain ⟨first, rest, rfl⟩ := List.exists_cons_of_ne_nil hnonempty
      exact List.ne_nil_of_mem ((hothers first).mpr List.mem_cons_self)
    have hknown' : ∀ type ∈ others, pool.contains type := fun type htype =>
      hknown type ((hothers type).mp htype)
    have hsame : pool.NoneAbove (· ∈ others) ↔ pool.NoneAbove (· ∈ types) :=
      ⟨.congr hothers, .congr fun type => (hothers type).symm⟩
    rw [← hwell.joinAll_eq_none_iff hnonempty hknown,
      ← hwell.joinAll_eq_none_iff hnonempty' hknown'] at hsame
    refine ⟨?_, fun later hgrows => ?_⟩
    · rw [Bool.eq_iff_iff, Option.isSome_iff_ne_none, Option.isSome_iff_ne_none]
      exact not_congr hsame
    · obtain ⟨hlater, hkept⟩ := hgrows.keeps hjoins.wellFormed
      have hkept' : pool.KeptBy later := KeptBy.trans hjoins.kept hkept
      have hagain := (hlater.joinsTo_joinAll hnonempty' fun type htype =>
        hkept'.contains (hknown' type htype)).congr hothers
      exact hjoins.result_eq hkept hagain

/-- Two tuples that do not compare join at a tuple that is new to the pool. -/
theorem joinAll_least_upper_bound_of_tuples :
    let pool := ((initial.tuple [.i8, .i32]).2.tuple [.i32, .i8]).2
    (pool.joinAll [⟨11⟩, ⟨12⟩]).1 = some ⟨13⟩ ∧
      ∀ later, Grows (pool.joinAll [⟨11⟩, ⟨12⟩]).2 later → ∀ other,
        later.isSubtype ⟨11⟩ other = true → later.isSubtype ⟨12⟩ other = true →
          later.isSubtype ⟨13⟩ other = true := by
  intro pool
  have hpool : pool.Reachable :=
    ((Grows.refl initial).tuple [.i8, .i32] (by decide)).tuple [.i32, .i8] (by decide)
  have hjoin : (pool.joinAll [⟨11⟩, ⟨12⟩]).1 = some ⟨13⟩ := by decide +kernel
  have hknown : ∀ type ∈ ([⟨11⟩, ⟨12⟩] : List Ty), pool.contains type := by decide
  obtain ⟨-, hleast, -⟩ := joinAll_least_upper_bound hpool (List.cons_ne_nil _ _) hknown
  refine ⟨hjoin, fun later hgrows other hone hother => ?_⟩
  refine ((hleast ⟨13⟩ hjoin).2 later hgrows).2 other fun type htype => ?_
  rcases List.mem_cons.mp htype with rfl | htype
  · exact hone
  · exact List.mem_singleton.mp htype ▸ hother

end Pool

end OrPattern
