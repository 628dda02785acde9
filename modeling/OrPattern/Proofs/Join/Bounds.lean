import OrPattern.Proofs.Order.Growth

namespace OrPattern

namespace Pool

/-- The type stands above all of the given ones. -/
def Above (pool : Pool) (types : Ty → Prop) (bound : Ty) : Prop :=
  ∀ type, types type → pool.Below type bound

/-- The type is the least one above all of the given ones, and stays the least
    whatever is entered later. -/
def LeastAbove (pool : Pool) (types : Ty → Prop) (least : Ty) : Prop :=
  ∀ later : Pool, later.WellFormed → pool.KeptBy later →
    later.Above types least ∧ ∀ bound, later.Above types bound → later.Below least bound

/-- Nothing is above all of the given types, nor will anything be. -/
def NoneAbove (pool : Pool) (types : Ty → Prop) : Prop :=
  ∀ later : Pool, later.WellFormed → pool.KeptBy later → ∀ bound, ¬ later.Above types bound

/-- Two types, as what a bound is to be above of. -/
def Pair (a b type : Ty) : Prop := type = a ∨ type = b

variable {pool later : Pool} {types others : Ty → Prop} {a b least bound : Ty}

theorem above_pair_iff : pool.Above (Pair a b) bound ↔ pool.Below a bound ∧ pool.Below b bound := by
  simp [Above, Pair]

theorem LeastAbove.mono (hkept : pool.KeptBy later) (hleast : pool.LeastAbove types least) :
    later.LeastAbove types least :=
  fun last hlast hkept' => hleast last hlast (hkept.trans hkept')

theorem NoneAbove.mono (hkept : pool.KeptBy later) (hnone : pool.NoneAbove types) :
    later.NoneAbove types :=
  fun last hlast hkept' => hnone last hlast (hkept.trans hkept')

/-- If nothing is above some known types in one extension of a pool, nothing is in
    any other: the two have a common extension. -/
theorem NoneAbove.of_later (hpool : pool.WellFormed) (hlater : later.WellFormed)
    (hkept : pool.KeptBy later) (hknown : ∀ type, types type → pool.contains type)
    (hnone : later.NoneAbove types) : pool.NoneAbove types := by
  intro other hother hkept' bound habove
  obtain ⟨common, rename, hcommon, hextends, hfixed, hrenamed, -⟩ :=
    exists_renaming hother hlater hkept' hkept
  refine hnone common hcommon hextends (rename bound) fun type htype => ?_
  have hnever : rename .never = .never := hfixed _ (contains_of_form? hpool.form?_never)
  rw [← hfixed type (hknown type htype)]
  exact (habove type htype).renamed hrenamed hnever

theorem LeastAbove.congr (hiff : ∀ type, types type ↔ others type)
    (hleast : pool.LeastAbove types least) : pool.LeastAbove others least := by
  have htypes : types = others := funext fun type => propext (hiff type)
  exact htypes ▸ hleast

theorem NoneAbove.congr (hiff : ∀ type, types type ↔ others type)
    (hnone : pool.NoneAbove types) : pool.NoneAbove others := by
  have htypes : types = others := funext fun type => propext (hiff type)
  exact htypes ▸ hnone

theorem LeastAbove.above (hpool : pool.WellFormed) (hleast : pool.LeastAbove types least) :
    pool.Above types least :=
  (hleast pool hpool (KeptBy.refl pool)).1

theorem LeastAbove.below (hpool : pool.WellFormed) (hleast : pool.LeastAbove types least)
    (habove : pool.Above types bound) : pool.Below least bound :=
  (hleast pool hpool (KeptBy.refl pool)).2 bound habove

/-- There is one least type only. -/
theorem LeastAbove.unique (hpool : pool.WellFormed) (hleast : pool.LeastAbove types least)
    (hbound : pool.LeastAbove types bound) : least = bound :=
  (hleast.below hpool (hbound.above hpool)).antisymm hpool
    (hbound.below hpool (hleast.above hpool))

theorem LeastAbove.not_noneAbove (hpool : pool.WellFormed) (hleast : pool.LeastAbove types least) :
    ¬ pool.NoneAbove types :=
  fun hnone => hnone pool hpool (KeptBy.refl pool) least (hleast.above hpool)

theorem leastAbove_singleton (pool : Pool) (type : Ty) : pool.LeastAbove (· = type) type :=
  fun _ _ _ => ⟨fun other hother => hother ▸ .refl other, fun _ habove => habove type rfl⟩

/-- Of two types that compare the upper one is the least above both. -/
theorem leastAbove_pair_of_below (hbelow : pool.Below a b) : pool.LeastAbove (Pair a b) b := by
  intro later _ hkept
  refine ⟨above_pair_iff.mpr ⟨hbelow.mono hkept, .refl b⟩, fun bound habove => ?_⟩
  exact (above_pair_iff.mp habove).2

theorem pair_comm (a b type : Ty) : Pair a b type ↔ Pair b a type := or_comm

/-- A least type may stand for those it is above of. -/
theorem above_or_iff (hpool : pool.WellFormed) (hleast : pool.LeastAbove types least) :
    pool.Above (Pair least a) bound ↔ pool.Above (fun type => types type ∨ type = a) bound := by
  rw [above_pair_iff]
  constructor
  · rintro ⟨hlow, ha⟩ type (htype | rfl)
    · exact (hleast.above hpool type htype).trans hpool hlow
    · exact ha
  · intro habove
    exact ⟨hleast.below hpool fun type htype => habove type (.inl htype), habove a (.inr rfl)⟩

theorem LeastAbove.extend (hleast : pool.LeastAbove types least)
    (hpair : pool.LeastAbove (Pair least a) bound) :
    pool.LeastAbove (fun type => types type ∨ type = a) bound := by
  intro later hlater hkept
  obtain ⟨habove, hlow⟩ := hpair later hlater hkept
  have hleast := hleast.mono hkept
  refine ⟨(above_or_iff hlater hleast).mp habove, fun other hother => ?_⟩
  exact hlow other ((above_or_iff hlater hleast).mpr hother)

theorem LeastAbove.noneAbove_extend (hleast : pool.LeastAbove types least)
    (hnone : pool.NoneAbove (Pair least a)) :
    pool.NoneAbove fun type => types type ∨ type = a :=
  fun later hlater hkept bound habove => hnone later hlater hkept bound
    ((above_or_iff hlater (hleast.mono hkept)).mpr habove)

/-- The outcome of a join: the pool as it is left, and either the least type above
    all or the assurance that there is none above all. -/
structure JoinsTo (pool : Pool) (types : Ty → Prop) (result : Option Ty × Pool) : Prop where
  wellFormed : result.2.WellFormed
  kept : pool.KeptBy result.2
  least : ∀ {type : Ty}, result.1 = some type →
    result.2.contains type ∧ result.2.LeastAbove types type
  noBound : result.1 = none → result.2.NoneAbove types

namespace JoinsTo

theorem found (hpool : pool.WellFormed) (hknown : pool.contains least)
    (hleast : pool.LeastAbove types least) : pool.JoinsTo types (some least, pool) where
  wellFormed := hpool
  kept := KeptBy.refl pool
  least h := Option.some.inj h ▸ ⟨hknown, hleast⟩
  noBound := nofun

theorem absent (hpool : pool.WellFormed) (hnone : pool.NoneAbove types) :
    pool.JoinsTo types (none, pool) where
  wellFormed := hpool
  kept := KeptBy.refl pool
  least := nofun
  noBound _ := hnone

theorem congr (hiff : ∀ type, types type ↔ others type) {result : Option Ty × Pool}
    (hjoins : pool.JoinsTo types result) : pool.JoinsTo others result where
  wellFormed := hjoins.wellFormed
  kept := hjoins.kept
  least h := ⟨(hjoins.least h).1, (hjoins.least h).2.congr hiff⟩
  noBound h := (hjoins.noBound h).congr hiff

/-- A join made later on finds what the first one found. -/
theorem result_eq {result again : Option Ty × Pool} (hjoins : pool.JoinsTo types result)
    (hkept : result.2.KeptBy later) (hagain : later.JoinsTo types again) : again.1 = result.1 := by
  have hlast := hagain.wellFormed
  cases hresult : result.1 with
  | some bound =>
    have hleast := ((hjoins.least hresult).2.mono hkept).mono hagain.kept
    cases hfound : again.1 with
    | some found => exact congrArg some ((hagain.least hfound).2.unique hlast hleast)
    | none => exact absurd (hagain.noBound hfound) (hleast.not_noneAbove hlast)
  | none =>
    have hnone := ((hjoins.noBound hresult).mono hkept).mono hagain.kept
    cases hfound : again.1 with
    | some found => exact absurd hnone ((hagain.least hfound).2.not_noneAbove hlast)
    | none => rfl

theorem after (hkept : pool.KeptBy later) {result : Option Ty × Pool}
    (hjoins : later.JoinsTo types result) : pool.JoinsTo types result :=
  { hjoins with kept := hkept.trans hjoins.kept }

end JoinsTo

end Pool

end OrPattern
