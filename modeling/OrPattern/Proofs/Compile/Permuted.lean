import OrPattern.Proofs.Compile.Batch
import OrPattern.Proofs.Compile.Verdict

namespace OrPattern

open Attempt Pool

namespace BindingSite

variable {pool later : Pool} {name : Name} {span : Span} {sites others : List BindingSite} {top : Ty}

section Permuted

variable (hperm : (others.map types).Perm (sites.map types))
include hperm

theorem forall_iff_of_perm {P : Ty → Option Ty → Prop} :
    (∀ site ∈ others, P site.inferred site.ascription) ↔
      ∀ site ∈ sites, P site.inferred site.ascription := by
  have htypes : ∀ list : List BindingSite, (∀ site ∈ list, P site.inferred site.ascription) ↔
      ∀ found ∈ list.map types, P found.1 found.2 := by
    intro list
    rw [List.forall_mem_map]
    rfl
  rw [htypes, htypes]
  exact forall_congr' fun found => by rw [hperm.mem_iff]

theorem exists_ascription_iff_of_perm {P : Option Ty → Prop} :
    (∃ site ∈ others, P site.ascription) ↔ ∃ site ∈ sites, P site.ascription := by
  have hnone := forall_iff_of_perm hperm (P := fun _ ascription => ¬ P ascription)
  simpa using not_congr hnone

theorem perm_inferred : (others.map inferred).Perm (sites.map inferred) := by
  have hfirst := hperm.map Prod.fst
  rw [List.map_map, List.map_map] at hfirst
  exact hfirst

theorem perm_ascription : (others.filterMap ascription).Perm (sites.filterMap ascription) := by
  have hsecond := hperm.filterMap Prod.snd
  rw [List.filterMap_map, List.filterMap_map] at hsecond
  exact hsecond

variable (hpool : pool.WellFormed) (hlater : later.WellFormed) (hkept : pool.KeptBy later)
  (hknown : HasTypes.Known pool sites)
include hpool hlater hkept hknown

theorem admitted_iff_of_perm : Admitted later others ↔ Admitted pool sites := by
  refine (forall_iff_of_perm hperm (P := fun inferred ascription => ∀ ascribed ∈ ascription,
    later.isSubtype inferred ascribed = true)).trans ?_
  refine forall₂_congr fun site hsite => forall₂_congr fun ascribed hstated => ?_
  rw [hpool.isSubtype_eq hlater hkept (hknown site hsite).1 ((hknown site hsite).2 ascribed hstated)]

theorem highest_iff_of_perm : Highest later others top ↔ Highest pool sites top := by
  unfold Highest
  have hstated : (∃ site ∈ others, site.ascription = some top) ↔
      ∃ site ∈ sites, site.ascription = some top :=
    exists_ascription_iff_of_perm hperm (P := fun ascription => ascription = some top)
  rw [hstated]
  refine and_congr_right fun hstated => ?_
  obtain ⟨site, hsite, hstated⟩ := hstated
  refine (forall_iff_of_perm hperm (P := fun _ ascription => ∀ ascribed ∈ ascription,
    later.isSubtype ascribed top = true)).trans ?_
  refine forall₂_congr fun other hother => forall₂_congr fun ascribed hascribed => ?_
  rw [hpool.isSubtype_eq hlater hkept ((hknown other hother).2 ascribed hascribed)
    ((hknown site hsite).2 top hstated)]

theorem all_effective_eq_of_perm (htop : pool.contains top) :
    (others.all fun site => later.isSubtype site.effective top) =
      sites.all fun site => pool.isSubtype site.effective top := by
  rw [Bool.eq_iff_iff, List.all_eq_true, List.all_eq_true]
  refine (forall_iff_of_perm hperm (P := fun inferred ascription =>
    later.isSubtype (ascription.getD inferred) top = true)).trans ?_
  refine forall₂_congr fun site hsite => ?_
  rw [← hpool.isSubtype_eq hlater hkept (known_effective (hknown site hsite)) htop]
  rfl

/-- Sites in another order come to the same, once the types are there that the sites
    in this order enter. -/
theorem Settles.agree {verdict otherVerdict : Except ErrorCode (Ty × TypeOrigin) × Pool}
    (hsettles : Settles pool sites verdict) (hother : Settles later others otherVerdict)
    (hentered : verdict.2.KeptBy later) : otherVerdict.1 = verdict.1 := by
  have hadmittedIff := admitted_iff_of_perm hperm hpool hlater hkept hknown
  have hhighestIff : ∀ top, Highest later others top ↔ Highest pool sites top :=
    fun _ => highest_iff_of_perm hperm hpool hlater hkept hknown
  have hascribedIff := exists_ascription_iff_of_perm hperm (P := fun ascription => ascription ≠ none)
  -- Each way to come to something excludes the others, and the conditions carry over.
  have hunascribed : ∀ {list : List BindingSite}, (∀ site ∈ list, site.ascription = none) ↔
      ¬ ∃ site ∈ list, site.ascription ≠ none := by
    intro list
    simp
  cases hsettles with
  | refused refused =>
    cases hother with
    | refused => rfl
    | joined admitted _ | bounded admitted _ | apart admitted _ _ =>
      exact absurd (hadmittedIff.mp admitted) refused
  | joined admitted unascribed =>
    rw [hunascribed, ← hascribedIff] at unascribed
    cases hother with
    | refused refused => exact absurd (hadmittedIff.mpr admitted) refused
    | joined =>
      have hjoined := hpool.joinAll_eq_of_perm hlater
        (List.forall_mem_map.mpr fun site hsite => (hknown site hsite).1) (perm_inferred hperm)
        hentered
      dsimp only
      rw [hjoined]
    | bounded _ highest => exact absurd highest.ascribed unascribed
    | apart _ ascribed _ => exact absurd ascribed unascribed
  | @bounded top admitted highest =>
    cases hother with
    | refused refused => exact absurd (hadmittedIff.mpr admitted) refused
    | joined _ unascribed =>
      exact absurd (hascribedIff.mpr highest.ascribed) (hunascribed.mp unascribed)
    | bounded _ highest' =>
      obtain rfl := ((hhighestIff _).mp highest').unique hpool highest
      obtain ⟨⟨site, hsite, hstated⟩, -⟩ := highest
      rw [all_effective_eq_of_perm hperm hpool hlater hkept hknown
        ((hknown site hsite).2 _ hstated)]
    | apart _ _ apart => exact absurd ((hhighestIff _).mpr highest) (apart top)
  | apart admitted ascribed apart =>
    cases hother with
    | refused refused => exact absurd (hadmittedIff.mpr admitted) refused
    | joined _ unascribed => exact absurd (hascribedIff.mpr ascribed) (hunascribed.mp unascribed)
    | bounded _ highest => exact absurd ((hhighestIff _).mp highest) (apart _)
    | apart =>
      have hascriptions : ∀ type ∈ sites.filterMap ascription, pool.contains type := by
        intro type htype
        obtain ⟨site, hsite, hstated⟩ := List.mem_filterMap.mp htype
        exact (hknown site hsite).2 type hstated
      have hjoined := hpool.joinAll_eq_of_perm hlater hascriptions (perm_ascription hperm) hentered
      dsimp only
      rw [hjoined]

end Permuted

theorem rename_of_fixed {rename : Ty → Ty} {site : BindingSite}
    (hfixed : ∀ type, pool.contains type → rename type = type) (hknown : HasTypes.Known pool site) :
    site.rename rename = site := by
  obtain ⟨name, alternative, ascription, inferred, path, span, nested⟩ := site
  rw [BindingSite.rename, hfixed inferred hknown.1]
  cases ascription with
  | none => rfl
  | some ascribed => rw [Option.map_some, hfixed ascribed (hknown.2 ascribed rfl)]

end BindingSite

namespace Evidence

variable {evidence other : Evidence} {pool later common : Pool} {span otherSpan : Span}
  {names : List Name} {environment : Environment}

/-- The other evidence has the same names, and for each of them the same types and
    ascriptions, but at sites in another order. -/
structure Permuted (evidence other : Evidence) : Prop where
  names : other.names = evidence.names
  alternatives : other.alternatives = evidence.alternatives
  sites : ∀ name, ((other.sites name).map BindingSite.types).Perm
    ((evidence.sites name).map BindingSite.types)

theorem Permuted.known (hpermuted : evidence.Permuted other) {name : Name}
    (hknown : HasTypes.Known pool (evidence.sites name)) :
    HasTypes.Known pool (other.sites name) :=
  (BindingSite.forall_iff_of_perm (hpermuted.sites name) (P := fun inferred ascription =>
    pool.contains inferred ∧ ∀ ascribed ∈ ascription, pool.contains ascribed)).mpr hknown

end Evidence

end OrPattern
