import OrPattern.Environment.Reconcile
import OrPattern.Proofs.Compile.Yields
import OrPattern.Proofs.Order.Laws

namespace OrPattern

open Attempt

namespace BindingSite

variable {pool later : Pool} {sites : List BindingSite} {name : Name} {span : Span}

theorem findRefused?_eq_none_iff :
    findRefused? pool sites = none ↔ ∀ site ∈ sites, ∀ ascribed ∈ site.ascription,
      pool.isSubtype site.inferred ascribed = true := by
  rw [findRefused?, List.findSome?_eq_none_iff]
  refine forall₂_congr fun site _ => ?_
  cases site.ascription with
  | none => exact ⟨fun _ => nofun, fun _ => rfl⟩
  | some ascribed =>
    dsimp only
    split
    · next hbelow =>
      refine ⟨fun _ other hother => ?_, fun _ => rfl⟩
      exact Option.mem_some_iff.mp hother ▸ hbelow
    · next hbelow => exact ⟨nofun, fun h => absurd (h ascribed rfl) hbelow⟩

theorem findAbove?_eq_none_iff {bound : Ty} :
    findAbove? pool bound sites = none ↔
      ∀ site ∈ sites, pool.isSubtype site.effective bound = true := by
  rw [findAbove?, List.find?_eq_none]
  simp

theorem findUpper?_eq_some {upper : BindingSite} (hupper : findUpper? pool sites = some upper) :
    upper ∈ sites ∧ ∀ site ∈ sites, pool.isSubtype site.effective upper.effective = true :=
  ⟨List.mem_of_find?_eq_some hupper, by simpa using List.find?_some hupper⟩

theorem exists_findUpper? {upper : BindingSite} (hmem : upper ∈ sites)
    (hall : ∀ site ∈ sites, pool.isSubtype site.effective upper.effective = true) :
    ∃ found, findUpper? pool sites = some found := by
  refine Option.isSome_iff_exists.mp (List.find?_isSome.mpr ⟨upper, hmem, ?_⟩)
  simpa using hall

theorem mem_ascribed_iff {site : BindingSite} :
    site ∈ sites.filter (fun site => site.ascription.isSome) ↔
      site ∈ sites ∧ site.ascription.isSome = true :=
  List.mem_filter

theorem effective_of_ascribed {site : BindingSite} {ascribed : Ty}
    (hascribed : site.ascription = some ascribed) : site.effective = ascribed := by
  rw [effective, hascribed, Option.getD_some]

theorem upperAscription_yields_iff {first : BindingSite} {rest : List BindingSite}
    {upper : BindingSite} :
    (upperAscription name span sites first rest).Yields pool upper later ↔
      findUpper? pool (first :: rest) = some upper ∧ pool = later := by
  simp only [upperAscription, yields_get_bind_iff]
  cases findUpper? pool (first :: rest) with
  | some found => simp only [yields_pure_iff, Option.some.injEq]
  | none =>
    simp only [yields_modifyGet_bind_iff, reduceCtorEq, false_and, iff_false]
    split
    · exact not_yields_throw
    · rw [yields_get_bind_iff]
      exact not_yields_throw

/-- Success of a name: its ascriptions admit their own places and either there is
    none and the types join, or one of them is above the types of all places. -/
theorem reconcileName_yields {type : Ty} {origin : TypeOrigin}
    (hyields : (reconcileName name span sites).Yields pool (type, origin) later) :
    (∀ site ∈ sites, ∀ ascribed ∈ site.ascription,
      pool.isSubtype site.inferred ascribed = true) ∧
    ((∀ site ∈ sites, site.ascription = none) ∧
        pool.joinAll (sites.map inferred) = (some type, later) ∧ origin = .inferred ∨
      (∃ upper ∈ sites, upper.ascription = some type) ∧
        (∀ site ∈ sites, pool.isSubtype site.effective type = true) ∧ pool = later ∧
        origin = .ascribed) := by
  simp only [reconcileName, yields_get_bind_iff] at hyields
  split at hyields
  · exact absurd hyields not_yields_throw
  · next hrefused =>
    refine ⟨findRefused?_eq_none_iff.mp hrefused, ?_⟩
    split at hyields
    · next hnone =>
      rw [yields_modifyGet_bind_iff] at hyields
      refine .inl ⟨fun site hsite => ?_, ?_⟩
      · have := List.filter_eq_nil_iff.mp hnone site hsite
        simpa using this
      · rcases hjoin : pool.joinAll (sites.map inferred) with ⟨result, next⟩
        rw [hjoin] at hyields
        cases result with
        | none => exact absurd hyields not_yields_throw
        | some joined =>
          obtain ⟨heq, rfl⟩ := yields_pure_iff.mp hyields
          cases heq
          exact ⟨rfl, rfl⟩
    · next first rest hascribed =>
      obtain ⟨bound, middle, hbound, hyields⟩ := yields_bind_iff.mp hyields
      obtain ⟨hupper, rfl⟩ := upperAscription_yields_iff.mp hbound
      obtain ⟨hmem, hall⟩ := findUpper?_eq_some hupper
      rw [yields_get_bind_iff] at hyields
      split at hyields
      · exact absurd hyields not_yields_throw
      · next habove =>
        obtain ⟨heq, rfl⟩ := yields_pure_iff.mp hyields
        cases heq
        rw [← hascribed, mem_ascribed_iff] at hmem
        obtain ⟨ascribed, hsome⟩ := Option.isSome_iff_exists.mp hmem.2
        refine .inr ⟨⟨bound, hmem.1, ?_⟩, fun site hsite => ?_, rfl, rfl⟩
        · rw [effective_of_ascribed hsome, hsome]
        · cases hcase : site.ascription with
          | none =>
            refine findAbove?_eq_none_iff.mp habove site (List.mem_filter.mpr ⟨hsite, ?_⟩)
            rw [hcase, Option.isNone_none]
          | some other =>
            refine hall site (hascribed ▸ mem_ascribed_iff.mpr ⟨hsite, ?_⟩)
            rw [hcase, Option.isSome_some]

/-- The other way round: these conditions suffice. -/
theorem exists_reconcileName_yields (hpool : pool.WellFormed)
    (hadmitted : ∀ site ∈ sites, ∀ ascribed ∈ site.ascription,
      pool.isSubtype site.inferred ascribed = true)
    (hcases : (∀ site ∈ sites, site.ascription = none) ∧
        (pool.joinAll (sites.map inferred)).1 ≠ none ∨
      ∃ upper ∈ sites, upper.ascription.isSome ∧
        ∀ site ∈ sites, pool.isSubtype site.effective upper.effective = true) :
    ∃ type origin later, (reconcileName name span sites).Yields pool (type, origin) later := by
  simp only [reconcileName, yields_get_bind_iff, findRefused?_eq_none_iff.mpr hadmitted]
  split
  · next hnone =>
    have hunascribed : ∀ site ∈ sites, site.ascription = none := fun site hsite => by
      simpa using List.filter_eq_nil_iff.mp hnone site hsite
    have hjoins : (pool.joinAll (sites.map inferred)).1 ≠ none := by
      refine hcases.elim And.right ?_
      rintro ⟨upper, hupper, hsome, -⟩
      rw [hunascribed upper hupper] at hsome
      cases hsome
    obtain ⟨joined, hjoined⟩ := Option.ne_none_iff_exists'.mp hjoins
    refine ⟨joined, .inferred, (pool.joinAll (sites.map inferred)).2, ?_⟩
    rw [yields_modifyGet_bind_iff, hjoined]
    exact yields_pure_iff.mpr ⟨rfl, rfl⟩
  · next first rest hascribed =>
    have hmem : ∀ site, site ∈ first :: rest ↔ site ∈ sites ∧ site.ascription.isSome = true :=
      fun site => hascribed ▸ mem_ascribed_iff
    obtain ⟨upper, hupper, hsome, hall⟩ : ∃ upper ∈ sites, upper.ascription.isSome ∧
        ∀ site ∈ sites, pool.isSubtype site.effective upper.effective = true := by
      refine hcases.resolve_left fun h => ?_
      obtain ⟨hfirst, hsome⟩ := (hmem first).mp List.mem_cons_self
      rw [h.1 first hfirst] at hsome
      cases hsome
    obtain ⟨found, hfound⟩ : ∃ found, findUpper? pool (first :: rest) = some found :=
      exists_findUpper? ((hmem upper).mpr ⟨hupper, hsome⟩) fun site hsite =>
        hall site ((hmem site).mp hsite).1
    have hhigh := (findUpper?_eq_some hfound).2 upper ((hmem upper).mpr ⟨hupper, hsome⟩)
    have hbound : findAbove? pool found.effective
        (sites.filter fun site => site.ascription.isNone) = none := by
      refine findAbove?_eq_none_iff.mpr fun site hsite => ?_
      have hlow := hall site (List.mem_filter.mp hsite).1
      rw [hpool.isSubtype_iff] at hlow hhigh ⊢
      exact hlow.trans hpool hhigh
    refine ⟨found.effective, .ascribed, pool, yields_bind_iff.mpr ⟨found, pool, ?_, ?_⟩⟩
    · exact upperAscription_yields_iff.mpr ⟨hfound, rfl⟩
    · rw [yields_get_bind_iff, hbound]
      exact yields_pure_iff.mpr ⟨rfl, rfl⟩

end BindingSite

theorem Environment.entries_of_insert? {environment next : Environment} {entry : EnvironmentEntry}
    (hinsert : environment.insert? entry = some next) :
    next.entries = environment.entries ++ [entry] := by
  unfold insert? at hinsert
  split at hinsert
  · cases hinsert
  · cases hinsert
    rfl

namespace Evidence

variable {evidence : Evidence} {span : Span} {pool later : Pool} {environment result : Environment}

theorem reconcileNames_nil_yields_iff :
    (evidence.reconcileNames span [] environment).Yields pool result later ↔
      environment = result ∧ pool = later := by
  simp only [reconcileNames]
  exact yields_pure_iff

theorem reconcileNames_cons_yields_iff {name : Name} {names : List Name} :
    (evidence.reconcileNames span (name :: names) environment).Yields pool result later ↔
      (evidence.sites name).length = evidence.alternatives ∧ ∃ type origin middle,
        (BindingSite.reconcileName name span (evidence.sites name)).Yields pool (type, origin)
          middle ∧
        ∃ next, environment.insert? ⟨name, type, origin⟩ = some next ∧
          (evidence.reconcileNames span names next).Yields middle result later := by
  simp only [reconcileNames]
  split
  · next hcount =>
    refine ⟨fun h => ?_, fun h => absurd h.1 hcount⟩
    obtain ⟨_, _, hthrow, -⟩ := yields_bind_iff.mp h
    exact absurd hthrow not_yields_throw
  · next hcount =>
    rw [yields_bind_iff]
    constructor
    · rintro ⟨⟨type, origin⟩, middle, hname, hrest⟩
      refine ⟨not_not.mp hcount, type, origin, middle, hname, ?_⟩
      dsimp only at hrest
      split at hrest
      · next next hinsert => exact ⟨next, hinsert, hrest⟩
      · exact absurd hrest not_yields_throw
    · rintro ⟨-, type, origin, middle, hname, next, hinsert, hrest⟩
      refine ⟨(type, origin), middle, hname, ?_⟩
      simp only [hinsert]
      exact hrest

/-- Every name gets an entry, in the order of the names. -/
theorem names_of_reconcileNames {names : List Name}
    (hyields : (evidence.reconcileNames span names environment).Yields pool result later) :
    result.names = environment.names ++ names := by
  induction names generalizing environment pool with
  | nil =>
    obtain ⟨rfl, -⟩ := reconcileNames_nil_yields_iff.mp hyields
    exact (List.append_nil _).symm
  | cons name names ih =>
    obtain ⟨-, _, _, _, -, next, hinsert, hrest⟩ := reconcileNames_cons_yields_iff.mp hyields
    rw [ih hrest, Environment.names_of_insert? hinsert, List.append_assoc, List.singleton_append]

end Evidence

end OrPattern
