import OrPattern.Proofs.Compile.Growth
import OrPattern.Proofs.Pattern.WellFormed

namespace OrPattern

open Attempt

variable {base pool later : Pool} {places : Option Ty → Ty → Prop} {ascription : Option Ty}
  {inferred : Ty}

/-- What a site or an entry says about the places that it stands for, each with an
    ascription, if any, and a type: an ascription of its own is the uppermost of
    theirs, without one none of them has any and its type is the least above
    theirs. -/
structure Summary (pool : Pool) (places : Option Ty → Ty → Prop) (ascription : Option Ty)
    (inferred : Ty) : Prop where
  stated : ∀ upper ∈ ascription, ∃ type, places (some upper) type
  above : ∀ upper ∈ ascription, ∀ stated type, places stated type →
    pool.Below (stated.getD type) upper
  unascribed : ascription = none → ∀ stated type, places stated type → stated = none
  least : ascription = none → pool.LeastAbove (places none) inferred
  /-- The type is either the ascription itself or the type of a place of it. -/
  own : ∀ upper ∈ ascription, inferred = upper ∨ places (some upper) inferred
  /-- A place whose ascription may not admit its type is the only one. -/
  admits : ∀ ascribed type, places (some ascribed) type →
    pool.Below type ascribed ∨ ascription = some ascribed ∧ inferred = type

/-- Every ascription admits the type at its own place. -/
def Admitted (pool : Pool) (places : Option Ty → Ty → Prop) : Prop :=
  ∀ ascribed type, places (some ascribed) type → pool.Below type ascribed

theorem Admitted.mono (hkept : pool.KeptBy later) (hadmitted : Admitted pool places) :
    Admitted later places :=
  fun ascribed type hplace => (hadmitted ascribed type hplace).mono hkept

/-- The places of all items together. -/
def AmongPlaces {α : Type} (items : List α) (placesOf : α → Option Ty → Ty → Prop)
    (stated : Option Ty) (type : Ty) : Prop :=
  ∃ item ∈ items, placesOf item stated type

namespace Summary

theorem mono (hkept : pool.KeptBy later) (hsummary : Summary pool places ascription inferred) :
    Summary later places ascription inferred where
  stated := hsummary.stated
  above upper hupper stated type hplace := (hsummary.above upper hupper stated type hplace).mono hkept
  unascribed := hsummary.unascribed
  least hnone := (hsummary.least hnone).mono hkept
  own := hsummary.own
  admits ascribed type hplace := (hsummary.admits ascribed type hplace).imp_left (·.mono hkept)

theorem congr {others : Option Ty → Ty → Prop}
    (hiff : ∀ stated type, places stated type ↔ others stated type)
    (hsummary : Summary pool places ascription inferred) :
    Summary pool others ascription inferred := by
  have hsame : places = others := funext fun stated => funext fun type => propext (hiff stated type)
  exact hsame ▸ hsummary

/-- The one place of a binding speaks for itself. -/
theorem of_place (hplaces : ∀ stated type, places stated type ↔ ascription = stated ∧ inferred = type) :
    Summary pool places ascription inferred where
  stated upper hupper := ⟨inferred, (hplaces _ _).mpr ⟨hupper, rfl⟩⟩
  above upper hupper stated type hplace := by
    obtain ⟨rfl, rfl⟩ := (hplaces _ _).mp hplace
    rw [Option.mem_def.mp hupper, Option.getD_some]
    exact .refl upper
  unascribed hnone stated type hplace := ((hplaces _ _).mp hplace).1 ▸ hnone
  least hnone := by
    refine (Pool.leastAbove_singleton pool inferred).congr fun type => ?_
    rw [hplaces, eq_comm]
    exact ⟨fun h => ⟨hnone, h⟩, And.right⟩
  own upper hupper := .inr ((hplaces _ _).mpr ⟨hupper, rfl⟩)
  admits ascribed type hplace := .inr ((hplaces _ _).mp hplace)

/-- Every place lies below the effective type. -/
theorem below_effective (hpool : pool.WellFormed)
    (hsummary : Summary pool places ascription inferred) {stated : Option Ty} {type : Ty}
    (hplace : places stated type) : pool.Below (stated.getD type) (ascription.getD inferred) := by
  cases ascription with
  | some upper => exact hsummary.above upper rfl stated type hplace
  | none =>
    obtain rfl := hsummary.unascribed rfl stated type hplace
    exact (hsummary.least rfl).above hpool type hplace

/-- What is above every place is above the effective type. -/
theorem effective_below (hpool : pool.WellFormed)
    (hsummary : Summary pool places ascription inferred) {upper : Ty}
    (habove : ∀ stated type, places stated type → pool.Below (stated.getD type) upper) :
    pool.Below (ascription.getD inferred) upper := by
  cases ascription with
  | some stated =>
    obtain ⟨place, hplace⟩ := hsummary.stated stated rfl
    exact habove (some stated) place hplace
  | none => exact (hsummary.least rfl).below hpool fun type hplace => habove none type hplace

/-- If a place has an ascription, the site has one that is above it. -/
theorem exists_ascription (hsummary : Summary pool places ascription inferred) {stated type : Ty}
    (hplace : places (some stated) type) : ∃ upper, ascription = some upper ∧ pool.Below stated upper := by
  obtain ⟨upper, hupper⟩ : ∃ upper, ascription = some upper := by
    refine Option.ne_none_iff_exists'.mp fun hnone => ?_
    cases hsummary.unascribed hnone _ _ hplace
  exact ⟨upper, hupper, hsummary.above upper hupper _ _ hplace⟩

/-- What a site or an entry says is settled by its places. -/
theorem unique (hpool : pool.WellFormed) {other : Option Ty} {otherInferred : Ty}
    (hsummary : Summary pool places ascription inferred)
    (hother : Summary pool places other otherInferred) :
    ascription = other ∧ ascription.getD inferred = other.getD otherInferred := by
  have heffective : ascription.getD inferred = other.getD otherInferred :=
    (hsummary.effective_below hpool fun _ _ hplace => hother.below_effective hpool hplace).antisymm hpool
      (hother.effective_below hpool fun _ _ hplace => hsummary.below_effective hpool hplace)
  refine ⟨?_, heffective⟩
  cases ascription with
  | none =>
    cases other with
    | none => rfl
    | some upper =>
      obtain ⟨type, hplace⟩ := hother.stated upper rfl
      cases hsummary.unascribed rfl _ _ hplace
  | some upper =>
    cases other with
    | none =>
      obtain ⟨type, hplace⟩ := hsummary.stated upper rfl
      cases hother.unascribed rfl _ _ hplace
    | some otherUpper => exact congrArg some heffective

end Summary

namespace BindingSite

variable {name : Name} {span : Span} {sites : List BindingSite} {type : Ty} {origin : TypeOrigin}
  {α : Type} {items : List α} {placesOf : α → Option Ty → Ty → Prop}

/-- The join of the types of sites without ascription is the least above all their
    places. -/
theorem summary_of_join (hkept : pool.KeptBy later)
    (hsites : List.Forall₂ (fun item site => Summary pool (placesOf item) site.ascription
      site.inferred) items sites)
    (hnone : ∀ site ∈ sites, site.ascription = none)
    (hleast : later.LeastAbove (· ∈ sites.map BindingSite.inferred) type) :
    Summary later (AmongPlaces items placesOf) none type ∧
      Admitted later (AmongPlaces items placesOf) := by
  have hunascribed : ∀ stated place, AmongPlaces items placesOf stated place → stated = none := by
    rintro stated place ⟨item, hmem, hplace⟩
    obtain ⟨site, hsite, hsummary⟩ := exists_of_forall₂ hsites.flip hmem
    exact hsummary.unascribed (hnone site hsite) stated place hplace
  have hadmitted : Admitted later (AmongPlaces items placesOf) := by
    intro ascribed place hplace
    cases hunascribed _ _ hplace
  have hleastAll : later.LeastAbove (AmongPlaces items placesOf none) type := by
    intro last hlast hkept'
    obtain ⟨hbound, hlow⟩ := hleast last hlast hkept'
    have hsite : ∀ {item site}, site ∈ sites →
        Summary pool (placesOf item) site.ascription site.inferred →
        last.LeastAbove (placesOf item none) site.inferred := fun hsite hsummary =>
      ((hsummary.least (hnone _ hsite)).mono hkept).mono hkept'
    refine ⟨?_, fun other hother => hlow other fun place hplace => ?_⟩
    · rintro place ⟨item, hmem, hplace⟩
      obtain ⟨site, hmemSite, hsummary⟩ := exists_of_forall₂ hsites.flip hmem
      exact ((hsite hmemSite hsummary).above hlast place hplace).trans hlast
        (hbound _ (List.mem_map.mpr ⟨site, hmemSite, rfl⟩))
    · obtain ⟨site, hmemSite, rfl⟩ := List.mem_map.mp hplace
      obtain ⟨item, hmem, hsummary⟩ := exists_of_forall₂ hsites hmemSite
      exact (hsite hmemSite hsummary).below hlast fun place hplace => hother place ⟨item, hmem, hplace⟩
  refine ⟨?_, hadmitted⟩
  exact {
    stated := nofun
    above := nofun
    unascribed _ := hunascribed
    least _ := hleastAll
    own := nofun
    admits ascribed place hplace := .inl (hadmitted ascribed place hplace) }

/-- An ascription above the types of all sites is above all their places. -/
theorem summary_of_upper (hpool : pool.WellFormed)
    (hsites : List.Forall₂ (fun item site => Summary pool (placesOf item) site.ascription
      site.inferred) items sites)
    (hadmitted : ∀ site ∈ sites, ∀ ascribed ∈ site.ascription, pool.Below site.inferred ascribed)
    {upper : BindingSite} (hupper : upper ∈ sites) (hascribed : upper.ascription = some type)
    (habove : ∀ site ∈ sites, pool.Below site.effective type) :
    Summary pool (AmongPlaces items placesOf) (some type) type ∧
      Admitted pool (AmongPlaces items placesOf) := by
  have hadmits : Admitted pool (AmongPlaces items placesOf) := by
    rintro ascribed place ⟨item, hmem, hplace⟩
    obtain ⟨site, hsite, hsummary⟩ := exists_of_forall₂ hsites.flip hmem
    rcases hsummary.admits ascribed place hplace with hbelow | ⟨hown, rfl⟩
    · exact hbelow
    · exact hadmitted site hsite ascribed hown
  refine ⟨⟨?_, ?_, nofun, nofun, ?_, fun ascribed place hplace => .inl (hadmits _ _ hplace)⟩, hadmits⟩
  · intro top htop
    obtain rfl := Option.mem_some_iff.mp htop
    obtain ⟨item, hmem, hsummary⟩ := exists_of_forall₂ hsites hupper
    obtain ⟨place, hplace⟩ := hsummary.stated type hascribed
    exact ⟨place, item, hmem, hplace⟩
  · rintro top htop stated place ⟨item, hmem, hplace⟩
    obtain rfl := Option.mem_some_iff.mp htop
    obtain ⟨site, hsite, hsummary⟩ := exists_of_forall₂ hsites.flip hmem
    exact (hsummary.below_effective hpool hplace).trans hpool (habove site hsite)
  · exact fun top htop => .inl (Option.mem_some_iff.mp htop)

/-- The type of a name speaks for the places of all alternatives, if the sites do
    for those of one each. -/
theorem summary_of_reconcileName (hpool : pool.WellFormed) (hnonempty : sites ≠ [])
    (hknown : ∀ site ∈ sites, site.ascription = none → pool.contains site.inferred)
    (hsites : List.Forall₂ (fun item site => Summary pool (placesOf item) site.ascription
      site.inferred) items sites)
    (hyields : (reconcileName name span sites).Yields pool (type, origin) later) :
    Summary later (AmongPlaces items placesOf) (EnvironmentEntry.ascription ⟨name, type, origin⟩)
        type ∧ Admitted later (AmongPlaces items placesOf) := by
  obtain ⟨hadmitted, ⟨hnone, hjoin, rfl⟩ | ⟨⟨upper, hupper, hascribed⟩, habove, rfl, rfl⟩⟩ :=
    reconcileName_yields hyields
  · have htypes : ∀ type ∈ sites.map BindingSite.inferred, pool.contains type := by
      intro type hmem
      obtain ⟨site, hsite, rfl⟩ := List.mem_map.mp hmem
      exact hknown site hsite (hnone site hsite)
    have hjoins := hpool.joinsTo_joinAll (fun h => hnonempty (List.map_eq_nil_iff.mp h)) htypes
    rw [hjoin] at hjoins
    exact summary_of_join hjoins.kept hsites hnone (hjoins.least rfl).2
  · simp only [hpool.isSubtype_iff] at hadmitted habove
    exact summary_of_upper hpool hsites hadmitted hupper hascribed habove

/-- If nothing is above the types of the sites, nothing is above the places that
    they speak for. -/
theorem noneAbove_of_sites
    (hsites : List.Forall₂ (fun item site => Summary pool (placesOf item) site.ascription
      site.inferred) items sites)
    (hnone : ∀ site ∈ sites, site.ascription = none)
    (habsent : pool.NoneAbove (· ∈ sites.map BindingSite.inferred)) :
    pool.NoneAbove (AmongPlaces items placesOf none) := by
  intro later hlater hkept bound habove
  refine habsent later hlater hkept bound fun type htype => ?_
  obtain ⟨site, hsite, rfl⟩ := List.mem_map.mp htype
  obtain ⟨item, hmem, hsummary⟩ := exists_of_forall₂ hsites hsite
  exact ((hsummary.least (hnone site hsite)).mono hkept).below hlater fun place hplace =>
    habove place ⟨item, hmem, hplace⟩

/-- A name gets its type if the places that its sites speak for can be brought
    together. -/
theorem exists_reconcileName_of_places (hpool : pool.WellFormed) (hnonempty : sites ≠ [])
    (hknown : ∀ site ∈ sites, site.ascription = none → pool.contains site.inferred)
    (hsites : List.Forall₂ (fun item site => Summary pool (placesOf item) site.ascription
      site.inferred) items sites)
    (hadmitted : Admitted pool (AmongPlaces items placesOf))
    (hsettled : (∀ stated type, AmongPlaces items placesOf stated type → stated = none) ∧
        ¬ pool.NoneAbove (AmongPlaces items placesOf none) ∨
      ∃ upper place, AmongPlaces items placesOf (some upper) place ∧
        ∀ stated type, AmongPlaces items placesOf stated type → pool.Below (stated.getD type) upper) :
    ∃ type origin later, (reconcileName name span sites).Yields pool (type, origin) later := by
  refine exists_reconcileName_yields hpool (fun site hsite ascribed hascribed => ?_) ?_
  · obtain ⟨item, hmem, hsummary⟩ := exists_of_forall₂ hsites hsite
    rw [hpool.isSubtype_iff]
    rcases hsummary.own ascribed hascribed with heq | hplace
    · exact heq ▸ .refl _
    · exact hadmitted ascribed _ ⟨item, hmem, hplace⟩
  · rcases hsettled with ⟨hunascribed, hbound⟩ | ⟨upper, place, ⟨item, hmem, hplace⟩, habove⟩
    · have hnone : ∀ site ∈ sites, site.ascription = none := by
        intro site hsite
        obtain ⟨item, hmem, hsummary⟩ := exists_of_forall₂ hsites hsite
        cases hascription : site.ascription with
        | none => rfl
        | some stated =>
          obtain ⟨place, hplace⟩ := hsummary.stated stated hascription
          cases hunascribed _ _ ⟨item, hmem, hplace⟩
      refine .inl ⟨hnone, fun hjoin => hbound (noneAbove_of_sites hsites hnone ?_)⟩
      refine (hpool.joinAll_eq_none_iff (fun h => hnonempty (List.map_eq_nil_iff.mp h)) ?_).mp hjoin
      intro type htype
      obtain ⟨site, hsite, rfl⟩ := List.mem_map.mp htype
      exact hknown site hsite (hnone site hsite)
    · obtain ⟨site, hsite, hsummary⟩ := exists_of_forall₂ hsites.flip hmem
      obtain ⟨top, htop, hhigh⟩ := hsummary.exists_ascription hplace
      refine .inr ⟨site, hsite, Option.isSome_of_mem htop, fun other hother => ?_⟩
      obtain ⟨otherItem, hotherMem, hotherSummary⟩ := exists_of_forall₂ hsites hother
      rw [hpool.isSubtype_iff, effective_of_ascribed htop]
      have hlow : pool.Below other.effective upper := hotherSummary.effective_below hpool
        fun stated type hotherPlace => habove stated type ⟨otherItem, hotherMem, hotherPlace⟩
      exact hlow.trans hpool hhigh

end BindingSite

/-- The entries of an environment speak for the places of all alternatives, if the
    sites do for those of one each. -/
theorem Evidence.summary_of_reconcileNames {α : Type} {items : List α}
    {placesOf : Name → α → Option Ty → Ty → Prop} {evidence : Evidence} {span : Span}
    {names : List Name} {environment result : Environment} (hpool : pool.WellFormed)
    (halternatives : evidence.alternatives ≠ 0) (hknown : evidence.findings.Known pool)
    (hsites : ∀ name ∈ names, List.Forall₂ (fun item site =>
      Summary pool (placesOf name item) site.ascription site.inferred) items (evidence.sites name))
    (henvironment : ∀ entry ∈ environment.entries,
      Summary pool (AmongPlaces items (placesOf entry.name)) entry.ascription entry.type ∧
        Admitted pool (AmongPlaces items (placesOf entry.name)))
    (hyields : (evidence.reconcileNames span names environment).Yields pool result later) :
    ∀ entry ∈ result.entries,
      Summary later (AmongPlaces items (placesOf entry.name)) entry.ascription entry.type ∧
        Admitted later (AmongPlaces items (placesOf entry.name)) := by
  induction names generalizing pool environment with
  | nil =>
    obtain ⟨rfl, rfl⟩ := reconcileNames_nil_yields_iff.mp hyields
    exact henvironment
  | cons name names ih =>
    obtain ⟨hcount, type, origin, middle, hname, next, hinsert, hrest⟩ :=
      reconcileNames_cons_yields_iff.mp hyields
    have hnonempty : evidence.sites name ≠ [] := by
      intro hnil
      rw [hnil, List.length_nil] at hcount
      exact halternatives hcount.symm
    have hsitesKnown : ∀ site ∈ evidence.sites name, site.ascription = none →
        pool.contains site.inferred := fun site hsite => hknown site (List.mem_filter.mp hsite).1
    have hkept := ((BindingSite.reconcileName_grows hpool hnonempty hsitesKnown hname).1.keeps hpool)
    have hentry := BindingSite.summary_of_reconcileName hpool hnonempty hsitesKnown
      (hsites name List.mem_cons_self) hname
    refine ih hkept.1 (hknown.mono hkept.2) (fun other hmem => ?_) (fun entry hmem => ?_) hrest
    · exact (hsites other (List.mem_cons_of_mem name hmem)).imp fun _ _ h => h.mono hkept.2
    · obtain hentries : next.entries = environment.entries ++ [⟨name, type, origin⟩] :=
        Environment.entries_of_insert? hinsert
      rw [hentries] at hmem
      rcases List.mem_append.mp hmem with hold | hnew
      · exact (henvironment entry hold).imp (·.mono hkept.2) (·.mono hkept.2)
      · obtain rfl := List.mem_singleton.mp hnew
        exact hentry

end OrPattern
