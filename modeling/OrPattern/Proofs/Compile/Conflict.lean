import OrPattern.Proofs.Compile.Develops
import OrPattern.Proofs.Compile.Faultless
import OrPattern.Proofs.Compile.Unknown

namespace OrPattern

open Attempt

namespace Implicated

variable {site : Implicated} {sorted rest : List Implicated}

/-- A site of a later alternative than all others goes to the end. -/
theorem insert_of_later (hlater : ∀ other ∈ sorted, other.alternative ≤ site.alternative) :
    insert site sorted = sorted ++ [site] := by
  induction sorted with
  | nil => rfl
  | cons first others ih =>
    rw [List.forall_mem_cons] at hlater
    rw [insert, if_neg (Nat.not_lt.mpr hlater.1), ih hlater.2, List.cons_append]

/-- Sites that stand in the order of the alternatives stay as they are. -/
theorem sort_of_ascending
    (hascending : rest.Pairwise fun site other => site.alternative ≤ other.alternative) :
    sort rest = rest := by
  suffices h : ∀ sorted, (sorted ++ rest).Pairwise (fun site other =>
      site.alternative ≤ other.alternative) →
        rest.foldl (fun sorted site => insert site sorted) sorted = sorted ++ rest from
    h [] hascending
  clear hascending
  induction rest with
  | nil => exact fun sorted _ => (List.append_nil sorted).symm
  | cons site rest ih =>
    intro sorted hascending
    have hlater : ∀ other ∈ sorted, other.alternative ≤ site.alternative := fun other hmem =>
      (List.pairwise_append.mp hascending).2.2 other hmem site List.mem_cons_self
    rw [List.append_cons] at hascending ⊢
    rw [List.foldl_cons, insert_of_later hlater]
    exact ih _ hascending

end Implicated

namespace BindingSite

variable {pool later : Pool} {name : Name} {span : Span} {sites others : List BindingSite}

/-- What is wrong with the types at the sites of a name. -/
inductive Conflict (later : Pool) (name : Name) (sites : List BindingSite) : Cause → Prop where
  | noCommonType (absent : later.NoneAbove (· ∈ sites.map effective)) :
      Conflict later name sites
        (.noCommonType name (sites.map fun site => (site.alternative, site.effective)))
  | misascribed {site : BindingSite} {ascribed : Ty} (mem : site ∈ sites)
      (stated : site.ascription = some ascribed)
      (refused : later.isSubtype site.inferred ascribed = false) :
      Conflict later name sites (.ascription name site.alternative ascribed site.inferred)
  | outranked {bound site : BindingSite} {ascribed : Ty} (boundMem : bound ∈ sites)
      (stated : bound.ascription = some ascribed) (mem : site ∈ sites)
      (refused : later.isSubtype site.effective ascribed = false) :
      Conflict later name sites (.ascription name site.alternative ascribed site.effective)

/-- The sites can be compared: their types are known, or they all lie at places of
    one type that none of their ascriptions admits. -/
def Comparable (pool : Pool) (sites : List BindingSite) : Prop :=
  (∀ site ∈ sites, pool.contains site.effective) ∨
    ∃ type, ∀ site ∈ sites, site.inferred = type ∧
      ∀ ascribed ∈ site.ascription, ¬ pool.isSubtype type ascribed

theorem Comparable.of_subset (hsites : Comparable pool sites) (hsubset : others ⊆ sites) :
    Comparable pool others :=
  hsites.imp (fun h site hmem => h site (hsubset hmem))
    fun ⟨type, h⟩ => ⟨type, fun site hmem => h site (hsubset hmem)⟩

theorem findRefused?_eq_some {site : BindingSite} {ascribed : Ty}
    (hrefused : findRefused? pool sites = some (site, ascribed)) :
    site ∈ sites ∧ site.ascription = some ascribed ∧
      pool.isSubtype site.inferred ascribed = false := by
  obtain ⟨other, hmem, hother⟩ := List.exists_of_findSome?_eq_some hrefused
  split at hother
  · next stated hstated =>
    split at hother
    · cases hother
    · next hbelow =>
      cases hother
      exact ⟨hmem, hstated, Bool.eq_false_iff.mpr hbelow⟩
  · cases hother

theorem findAbove?_eq_some {bound : Ty} {site : BindingSite}
    (habove : findAbove? pool bound sites = some site) :
    site ∈ sites ∧ pool.isSubtype site.effective bound = false :=
  ⟨List.mem_of_find?_eq_some habove, by simpa using List.find?_some habove⟩

theorem cause_incompatible
    (hordered : sites.Pairwise fun site other => site.alternative ≤ other.alternative) :
    (incompatible name span sites).cause =
      .noCommonType name (sites.map fun site => (site.alternative, site.effective)) := by
  have hsorted := Implicated.sort_of_ascending (List.pairwise_map.mpr hordered :
    (sites.map fun site => { site.implicate with type := some site.effective }).Pairwise
      fun site other => site.alternative ≤ other.alternative)
  simp only [incompatible, Rejection.ofTypes, Rejection.ofCause, hsorted, List.filterMap_map]
  exact congrArg (Cause.noCommonType name) (congrFun List.filterMap_eq_map sites)

/-- If the ascribed types have a join but none of them is above all, the first one is
    above some of them neither before nor after it is taken. -/
theorem exists_findAbove? {first : BindingSite} {rest : List BindingSite} (hpool : pool.WellFormed)
    (hlater : later.WellFormed) (hkept : pool.KeptBy later)
    (hknown : ∀ site ∈ first :: rest, pool.contains site.effective)
    (hupper : findUpper? pool (first :: rest) = none) :
    ∃ site, findAbove? later first.effective (first :: rest) = some site := by
  refine Option.ne_none_iff_exists'.mp fun hnone => ?_
  rw [findAbove?_eq_none_iff] at hnone
  obtain ⟨found, hfound⟩ := exists_findUpper? List.mem_cons_self fun site hmem => by
    rw [← hpool.isSubtype_eq hlater hkept (hknown site hmem) (hknown first List.mem_cons_self)]
    exact hnone site hmem
  rw [hupper] at hfound
  cases hfound

/-- An ascription that admits its own place leaves only known types to compare. -/
theorem Comparable.known_of_admits {first : BindingSite} (hsites : Comparable pool sites)
    (hfirst : first ∈ sites) (hsome : first.ascription.isSome)
    (hadmitted : ∀ ascribed ∈ first.ascription, pool.isSubtype first.inferred ascribed) :
    ∀ site ∈ sites, pool.contains site.effective := by
  refine hsites.resolve_right ?_
  rintro ⟨type, hsame⟩
  obtain ⟨ascribed, hstated⟩ := Option.isSome_iff_exists.mp hsome
  obtain ⟨rfl, hrefused⟩ := hsame first hfirst
  exact hrefused ascribed hstated (hadmitted ascribed hstated)

/-- If sites without an ascription have no join, no type is above them all. -/
theorem noneAbove_of_joinAll (hpool : pool.WellFormed) (hnonempty : sites ≠ [])
    (hsites : Comparable pool sites) (hunascribed : ∀ site ∈ sites, site.ascription = none)
    (hjoin : (pool.joinAll (sites.map inferred)).1 = none) :
    (pool.joinAll (sites.map inferred)).2.WellFormed ∧
      (pool.joinAll (sites.map inferred)).2.NoneAbove (· ∈ sites.map effective) := by
  have heffective : sites.map effective = sites.map inferred := List.map_congr_left
    fun site hsite => by rw [effective, hunascribed site hsite, Option.getD_none]
  have hmapped : sites.map inferred ≠ [] := fun h => hnonempty (List.map_eq_nil_iff.mp h)
  rcases hsites with hknown | ⟨type, hsame⟩
  · have htypes : ∀ type ∈ sites.map inferred, pool.contains type := by
      rw [← heffective]
      exact List.forall_mem_map.mpr hknown
    have hjoins := hpool.joinsTo_joinAll hmapped htypes
    exact ⟨hjoins.wellFormed, heffective ▸ hjoins.noBound hjoin⟩
  · have hone : ∀ other ∈ sites.map inferred, other = type :=
      List.forall_mem_map.mpr fun site hsite => (hsame site hsite).1
    rw [Pool.joinAll_of_all_eq hone hmapped] at hjoin
    cases hjoin

variable (hpool : pool.WellFormed)
  (hordered : sites.Pairwise fun site other => site.alternative ≤ other.alternative)
include hpool hordered

/-- Ascribed sites are refused for a pair of them, or because no type is above all
    their types, and then none is above those of all sites. -/
theorem conflict_upperAscription {first : BindingSite} {rest : List BindingSite}
    (hascribed : sites.filter (fun site => site.ascription.isSome) = first :: rest)
    (hknown : ∀ site ∈ first :: rest, pool.contains site.effective) :
    (upperAscription name span sites first rest).RejectsFrom pool fun later rejection =>
      later.WellFormed ∧ rejection.span = span ∧ Conflict later name sites rejection.cause := by
  have hmem : ∀ site, site ∈ first :: rest ↔ site ∈ sites ∧ site.ascription.isSome = true :=
    fun site => hascribed ▸ mem_ascribed_iff
  unfold upperAscription
  refine .get_bind ?_
  split
  · exact .pure _
  · next hupper =>
    have hnonempty : (first :: rest).map effective ≠ [] := List.cons_ne_nil _ _
    have htypes : ∀ type ∈ (first :: rest).map effective, pool.contains type := by
      intro type htype
      obtain ⟨site, hsite, rfl⟩ := List.mem_map.mp htype
      exact hknown site hsite
    have hjoins := hpool.joinsTo_joinAll hnonempty htypes
    refine .modifyGet_bind ?_
    dsimp only
    split
    · next hnone =>
      refine .throw ⟨hjoins.wellFormed, rfl, cause_incompatible hordered ▸ .noCommonType ?_⟩
      intro last hlast hkept bound habove
      refine hjoins.noBound hnone last hlast hkept bound fun type htype => habove type ?_
      obtain ⟨site, hsite, rfl⟩ := List.mem_map.mp htype
      exact List.mem_map.mpr ⟨site, ((hmem site).mp hsite).1, rfl⟩
    · refine .get_bind ?_
      obtain ⟨site, hsite⟩ := exists_findAbove? hpool hjoins.wellFormed hjoins.kept hknown hupper
      obtain ⟨hfirst, hsome⟩ := (hmem first).mp List.mem_cons_self
      obtain ⟨ascribed, hstated⟩ := Option.isSome_iff_exists.mp hsome
      rw [hsite, Option.getD_some]
      obtain ⟨hsiteMem, hrefused⟩ := findAbove?_eq_some hsite
      rw [effective_of_ascribed hstated] at hrefused ⊢
      exact .throw ⟨hjoins.wellFormed, rfl,
        .outranked hfirst hstated ((hmem site).mp hsiteMem).1 hrefused⟩

/-- A name is refused for what is wrong with the types at its sites. -/
theorem conflict_reconcileName (hnonempty : sites ≠ []) (hsites : Comparable pool sites) :
    (reconcileName name span sites).RejectsFrom pool fun later rejection =>
      later.WellFormed ∧ rejection.span = span ∧ Conflict later name sites rejection.cause := by
  unfold reconcileName
  refine .get_bind ?_
  split
  · next site ascribed hrefused =>
    obtain ⟨hmem, hstated, hbelow⟩ := findRefused?_eq_some hrefused
    exact .throw ⟨hpool, rfl, .misascribed hmem hstated hbelow⟩
  · next hadmitted =>
    rw [findRefused?_eq_none_iff] at hadmitted
    split
    · next hnone =>
      have hunascribed : ∀ site ∈ sites, site.ascription = none := fun site hsite => by
        simpa using List.filter_eq_nil_iff.mp hnone site hsite
      refine .modifyGet_bind ?_
      split
      · exact .pure _
      · next hjoin =>
        obtain ⟨hlater, habsent⟩ := noneAbove_of_joinAll hpool hnonempty hsites hunascribed hjoin
        exact .throw ⟨hlater, rfl, cause_incompatible hordered ▸ .noCommonType habsent⟩
    · next first rest hascribed =>
      obtain ⟨hfirst, hsome⟩ := mem_ascribed_iff.mp (hascribed ▸ List.mem_cons_self)
      have hknown := hsites.known_of_admits hfirst hsome (hadmitted first hfirst)
      refine .bind (conflict_upperAscription hpool hordered hascribed fun site hmem =>
        hknown site (mem_ascribed_iff.mp (hascribed ▸ hmem)).1) fun bound middle hbound => ?_
      obtain ⟨hupper, rfl⟩ := upperAscription_yields_iff.mp hbound
      obtain ⟨hboundMem, hboundSome⟩ :=
        mem_ascribed_iff.mp (hascribed ▸ (findUpper?_eq_some hupper).1)
      obtain ⟨ascribed, hstated⟩ := Option.isSome_iff_exists.mp hboundSome
      rw [effective_of_ascribed hstated]
      refine .get_bind ?_
      split
      · next site habove =>
        obtain ⟨hmem, hrefused⟩ := findAbove?_eq_some habove
        obtain ⟨hmem, hnone⟩ := List.mem_filter.mp hmem
        have hinferred : site.effective = site.inferred := by
          rw [effective, Option.isNone_iff_eq_none.mp hnone, Option.getD_none]
        rw [← hinferred]
        exact .throw ⟨hpool, rfl, .outranked hboundMem hstated hmem hrefused⟩
      · exact .pure _

omit hordered in
/-- Sites that can be compared still can be once a name has its type: the pool has
    grown by joins, or it is the same. -/
theorem Comparable.reconciled {type : Ty} {origin : TypeOrigin} (hnonempty : sites ≠ [])
    (hothers : Comparable pool others) (hsubset : sites ⊆ others)
    (hyields : (reconcileName name span sites).Yields pool (type, origin) later) :
    later.WellFormed ∧ Comparable later others := by
  rcases hothers with hknown | ⟨place, hsame⟩
  · have hinferred : ∀ site ∈ sites, site.ascription = none → pool.contains site.inferred := by
      intro site hmem hnone
      have heffective := hknown site (hsubset hmem)
      rwa [effective, hnone, Option.getD_none] at heffective
    obtain ⟨hlater, hkept⟩ := (reconcileName_grows hpool hnonempty hinferred hyields).1.keeps hpool
    exact ⟨hlater, .inl fun site hmem => hkept.contains (hknown site hmem)⟩
  · obtain ⟨rfl, -⟩ := reconcileName_of_unadmitted (fun site hmem => (hsame site (hsubset hmem)).1)
      (fun site hmem => (hsame site (hsubset hmem)).2) hyields
    exact ⟨hpool, .inr ⟨place, hsame⟩⟩

end BindingSite

/-- If the names cannot all get their types, there is a conflict at the sites of one of
    them. -/
theorem Evidence.conflict_reconcileNames {evidence : Evidence} {span : Span} {names : List Name}
    {environment : Environment} {pool : Pool} (hpool : pool.WellFormed)
    (halternatives : evidence.alternatives ≠ 0)
    (hsites : BindingSite.Comparable pool (names.flatMap evidence.sites))
    (hordered : ∀ name ∈ names, (evidence.sites name).Pairwise fun site other =>
      site.alternative ≤ other.alternative) :
    (evidence.reconcileNames span names environment).RejectsFrom pool fun later rejection =>
      rejection.Faultless → later.WellFormed ∧ rejection.span = span ∧ ∃ name ∈ names,
        BindingSite.Conflict later name (evidence.sites name) rejection.cause := by
  induction names generalizing pool environment with
  | nil => exact .pure environment
  | cons name names ih =>
    rw [List.forall_mem_cons] at hordered
    have hown : evidence.sites name ⊆ (name :: names).flatMap evidence.sites :=
      List.subset_append_left _ _
    simp only [reconcileNames]
    split
    · exact .throw fun hfaultless => absurd rfl (hfaultless _)
    · next hcount =>
      have hnonempty : evidence.sites name ≠ [] := by
        intro hnil
        rw [hnil, List.length_nil, ne_eq, not_not] at hcount
        exact halternatives hcount.symm
      refine .bind ((BindingSite.conflict_reconcileName hpool hordered.1 hnonempty
        (hsites.of_subset hown)).mono fun later rejection hconflict _ =>
          ⟨hconflict.1, hconflict.2.1, name, List.mem_cons_self, hconflict.2.2⟩)
        fun found middle hfound => ?_
      obtain ⟨hmiddle, hrest⟩ := hsites.reconciled hpool hnonempty hown hfound
      split
      · refine (ih hmiddle (hrest.of_subset (List.subset_append_right _ _)) hordered.2).mono ?_
        intro later rejection hrejected hfaultless
        obtain ⟨hlater, hspan, other, hmem, hconflict⟩ := hrejected hfaultless
        exact ⟨hlater, hspan, other, List.mem_cons_of_mem name hmem, hconflict⟩
      · exact .throw fun hfaultless => absurd rfl (hfaultless _)

end OrPattern
