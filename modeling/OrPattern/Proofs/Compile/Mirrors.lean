import Mathlib.Data.List.Find
import OrPattern.Proofs.Compile.Collects
import OrPattern.Proofs.Compile.Extends
import OrPattern.Proofs.Compile.Reconcile
import OrPattern.Proofs.Compile.Rejects
import OrPattern.Proofs.Compile.Renamed
import OrPattern.Proofs.Pattern.WellFormed

namespace OrPattern

open Attempt

instance {α : Type} [HasTypes α] : HasTypes (Except Rejection α) where
  rename rename := renameResult rename (HasTypes.rename rename)
  Known pool result := ∀ value, result = .ok value → HasTypes.Known pool value
  known_mono hkept hknown value hvalue := HasTypes.known_mono hkept (hknown value hvalue)

instance : HasTypes (Ty × TypeOrigin) where
  rename rename found := (rename found.1, found.2)
  Known pool found := pool.contains found.1
  known_mono hkept := hkept.contains

instance : HasTypes BindingSite where
  rename := BindingSite.rename
  Known pool site :=
    pool.contains site.inferred ∧ ∀ ascribed ∈ site.ascription, pool.contains ascribed
  known_mono hkept hknown :=
    ⟨hkept.contains hknown.1, fun ascribed hmem => hkept.contains (hknown.2 ascribed hmem)⟩

/-- A compiled nested or-pattern is used as it is from then on, so only the sites
    matter. -/
instance : HasTypes Findings where
  rename := Findings.rename
  Known pool findings := HasTypes.Known pool findings.sites
  known_mono := HasTypes.known_mono (α := List BindingSite)

instance : HasTypes Environment where
  rename := Environment.rename
  Known pool environment := ∀ entry ∈ environment.entries, pool.contains entry.type
  known_mono hkept hknown entry hentry := hkept.contains (hknown entry hentry)

instance : HasTypes Compiled where
  rename := Compiled.rename
  Known pool compiled := HasTypes.Known pool compiled.environment
  known_mono := HasTypes.known_mono (α := Environment)

instance : HasTypes Procedure where
  rename := Procedure.rename
  Known _ _ := True
  known_mono _ := id

/-- The shape phase sees no types. -/
instance : HasTypes Certificate where
  rename _ := id
  Known _ _ := True
  known_mono _ := id

namespace Attempt

variable {α β : Type} [HasTypes α] [HasTypes β] {common pool other : Pool} {rename : Ty → Ty}

/-- Two steps, one from each pool, end alike. -/
def Mirrors (common : Pool) (rename : Ty → Ty) (pool other : Pool)
    (attempt otherAttempt : Attempt α) : Prop :=
  Pool.EndAlike common rename pool other (attempt.runOn pool) (otherAttempt.runOn other)

namespace Mirrors

theorem pure (htwins : Pool.Twins common rename pool other) (value : α)
    (hknown : HasTypes.Known pool value) :
    Mirrors common rename pool other (pure value) (pure (HasTypes.rename rename value)) :=
  htwins.endAlike (.ok value : Except Rejection α) fun found hfound => by
    cases hfound
    exact hknown

theorem throw (htwins : Pool.Twins common rename pool other) {rejection otherRejection : Rejection}
    (hrejection : rejection.rename rename = otherRejection) :
    Mirrors common rename pool other (throw rejection : Attempt α) (throw otherRejection) := by
  subst hrejection
  exact htwins.endAlike (.error rejection : Except Rejection α) nofun

theorem liftM (htwins : Pool.Twins common rename pool other) (attempt : Except Rejection α)
    (hknown : HasTypes.Known pool attempt) :
    Mirrors common rename pool other (liftM attempt) (liftM (HasTypes.rename rename attempt)) := by
  have hhere := htwins.endAlike attempt hknown
  cases attempt <;> exact hhere

theorem bind {attempt otherAttempt : Attempt α} {next otherNext : α → Attempt β}
    (hattempt : Mirrors common rename pool other attempt otherAttempt)
    (hextends : ∀ value, (next value).Extends) (hextends' : ∀ value, (otherNext value).Extends)
    (hnext : ∀ value later otherLater, pool.KeptBy later →
      Pool.Twins common rename later otherLater → HasTypes.Known later value →
      Mirrors common rename later otherLater (next value)
        (otherNext (HasTypes.rename rename value))) :
    Mirrors common rename pool other (attempt >>= next) (otherAttempt >>= otherNext) := by
  unfold Mirrors
  rw [runOn_bind, runOn_bind]
  rcases hrun : attempt.runOn pool with ⟨result, middle⟩
  rcases hrun' : otherAttempt.runOn other with ⟨otherResult, otherMiddle⟩
  unfold Mirrors at hattempt
  rw [hrun, hrun'] at hattempt
  refine hattempt.andThen ?_ ?_ fun halike => ?_
  · cases result with
    | error rejection => exact Pool.KeptBy.refl middle
    | ok value => exact (hextends value middle).kept
  · cases otherResult with
    | error rejection => exact Pool.KeptBy.refl otherMiddle
    | ok value => exact (hextends' value otherMiddle).kept
  · obtain rfl : otherResult = HasTypes.rename rename result := halike.result
    cases result with
    | error rejection =>
      exact halike.twins.endAlike (.error rejection : Except Rejection β) nofun
    | ok value =>
      exact hnext value middle otherMiddle halike.kept halike.twins (halike.known value rfl)

theorem get_bind {next otherNext : Pool → Attempt α}
    (hnext : Mirrors common rename pool other (next pool) (otherNext other)) :
    Mirrors common rename pool other (get >>= next) (get >>= otherNext) := by
  unfold Mirrors
  rw [runOn_get_bind, runOn_get_bind]
  exact hnext

theorem joinAll_bind (htwins : Pool.Twins common rename pool other) (types : List Ty)
    (hknown : HasTypes.Known pool types) {next otherNext : Option Ty → Attempt α}
    (hextends : ∀ joined, (next joined).Extends) (hextends' : ∀ joined, (otherNext joined).Extends)
    (hnext : ∀ joined later otherLater, pool.KeptBy later →
      Pool.Twins common rename later otherLater → HasTypes.Known later joined →
      Mirrors common rename later otherLater (next joined) (otherNext (joined.map rename))) :
    Mirrors common rename pool other (modifyGet (fun pool => pool.joinAll types) >>= next)
      (modifyGet (fun pool => pool.joinAll (HasTypes.rename rename types)) >>= otherNext) := by
  refine bind ?_ hextends hextends' hnext
  exact (htwins.endAlike_joinAll hknown).map Except.ok Except.ok rfl
    fun _ hknown value hvalue => by
      cases hvalue
      exact hknown

end Mirrors

end Attempt

variable {options : Options} {common pool other base : Pool} {rename : Ty → Ty}

namespace BindingSite

variable {name : Name} {span : Span} {sites : List BindingSite}

theorem known_effective {site : BindingSite} (hknown : HasTypes.Known pool site) :
    pool.contains site.effective := by
  cases hascription : site.ascription with
  | none => simpa [effective, hascription] using hknown.1
  | some ascribed => simpa [effective, hascription] using hknown.2 ascribed hascription

/-- A search for a site finds the same one under other numbers. -/
theorem find?_rename {wanted otherWanted : BindingSite → Bool}
    (hwanted : ∀ site ∈ sites, otherWanted (site.rename rename) = wanted site) :
    (sites.map (BindingSite.rename rename)).find? otherWanted =
      (sites.find? wanted).map (BindingSite.rename rename) := by
  rw [List.find?_map]
  exact congrArg _ (List.find?_congr hwanted)

section Searches

variable (htwins : Pool.Twins common rename pool other)
include htwins

theorem isSubtype_effective_eq {site : BindingSite} {bound : Ty}
    (hsite : HasTypes.Known pool site) (hbound : pool.contains bound) :
    other.isSubtype (site.rename rename).effective (rename bound) =
      pool.isSubtype site.effective bound := by
  rw [effective_rename]
  exact htwins.embeds.isSubtype_eq htwins.wellFormed htwins.otherWellFormed
    (known_effective hsite) hbound

theorem findRefused?_rename (hsites : HasTypes.Known pool sites) :
    findRefused? other (sites.map (BindingSite.rename rename)) =
      (findRefused? pool sites).map fun found => (found.1.rename rename, rename found.2) := by
  induction sites with
  | nil => rfl
  | cons site rest ih =>
    obtain ⟨hsite, hrest⟩ := List.forall_mem_cons.mp hsites
    have hrest := ih hrest
    simp only [findRefused?] at hrest ⊢
    obtain ⟨name, alternative, ascription, inferred, path, span, nested⟩ := site
    cases ascription with
    | none => exact hrest
    | some ascribed =>
      have hadmits := htwins.embeds.isSubtype_eq htwins.wellFormed htwins.otherWellFormed hsite.1
        (hsite.2 ascribed rfl)
      simp only [List.map_cons, List.findSome?_cons, BindingSite.rename, Option.map_some]
        at hadmits ⊢
      rw [hadmits]
      cases pool.isSubtype inferred ascribed with
      | false => rfl
      | true => exact hrest

theorem findUpper?_rename (hsites : HasTypes.Known pool sites) :
    findUpper? other (sites.map (BindingSite.rename rename)) =
      (findUpper? pool sites).map (BindingSite.rename rename) := by
  refine find?_rename fun candidate hcandidate => ?_
  rw [Bool.eq_iff_iff, List.all_eq_true, List.all_eq_true, List.forall_mem_map]
  refine forall₂_congr fun site hsite => ?_
  rw [effective_rename rename candidate, isSubtype_effective_eq htwins (hsites site hsite)
    (known_effective (hsites candidate hcandidate))]

theorem findAbove?_rename {bound : Ty} (hbound : pool.contains bound)
    (hsites : HasTypes.Known pool sites) :
    findAbove? other (rename bound) (sites.map (BindingSite.rename rename)) =
      (findAbove? pool bound sites).map (BindingSite.rename rename) :=
  find?_rename fun site hsite => by rw [isSubtype_effective_eq htwins (hsites site hsite) hbound]

end Searches

theorem rename_incompatible : (incompatible name span sites).rename rename =
    incompatible name span (sites.map (BindingSite.rename rename)) := by
  simp only [incompatible, Rejection.rename_ofTypes, List.map_map]
  congr 1
  refine List.map_congr_left fun site _ => ?_
  simp only [Function.comp_apply, effective_rename]
  rfl

theorem map_effective_rename (rename : Ty → Ty) (sites : List BindingSite) :
    (sites.map (BindingSite.rename rename)).map effective =
      (sites.map effective).map rename := by
  rw [List.map_map, List.map_map]
  exact List.map_congr_left fun site _ => effective_rename rename site

theorem map_inferred_rename (sites : List BindingSite) :
    (sites.map (BindingSite.rename rename)).map inferred =
      (sites.map inferred).map rename := by
  rw [List.map_map, List.map_map]
  rfl

theorem filter_ascription_rename {kept : Option Ty → Bool}
    (hkept : ∀ ascription, kept (ascription.map rename) = kept ascription)
    (sites : List BindingSite) :
    (sites.map (BindingSite.rename rename)).filter (fun site => kept site.ascription) =
      (sites.filter fun site => kept site.ascription).map (BindingSite.rename rename) := by
  rw [List.filter_map]
  exact congrArg _ (List.filter_congr fun site _ => hkept site.ascription)

variable (htwins : Pool.Twins common rename pool other)
include htwins

theorem mirrors_upperAscription {first : BindingSite} {rest : List BindingSite}
    (hsites : HasTypes.Known pool (first :: rest)) :
    Mirrors common rename pool other (upperAscription name span sites first rest)
      (upperAscription name span (sites.map (BindingSite.rename rename)) (first.rename rename)
        (rest.map (BindingSite.rename rename))) := by
  unfold upperAscription
  refine .get_bind ?_
  have hupper := findUpper?_rename htwins hsites
  rw [List.map_cons] at hupper
  rw [hupper]
  cases hfound : findUpper? pool (first :: rest) with
  | some upper => exact .pure htwins upper (hsites upper (List.mem_of_find?_eq_some hfound))
  | none =>
    have htypes := map_effective_rename rename (first :: rest)
    rw [List.map_cons] at htypes
    dsimp only [Option.map_none]
    rw [htypes]
    refine .joinAll_bind htwins ((first :: rest).map effective) ?_ (fun joined => ?_)
      (fun joined => ?_) ?_
    · exact List.forall_mem_map.mpr fun site hsite => known_effective (hsites site hsite)
    · cases joined with
      | none => exact .throw _
      | some _ => exact .get_bind fun _ => .throw _
    · cases joined with
      | none => exact .throw _
      | some _ => exact .get_bind fun _ => .throw _
    · intro joined later otherLater hkept htwins hjoined
      cases joined with
      | none =>
        exact .throw htwins rename_incompatible
      | some type =>
        refine .get_bind ?_
        have hsites := HasTypes.known_mono hkept hsites
        have habove := findAbove?_rename htwins
          (known_effective (hsites first List.mem_cons_self)) hsites
        rw [← effective_rename rename first, List.map_cons] at habove
        rw [habove, Option.getD_map]
        refine .throw htwins ?_
        rw [Rejection.rename_ofAscription, ← effective_rename rename, ← effective_rename rename]
        rfl

theorem mirrors_reconcileName (hsites : HasTypes.Known pool sites) :
    Mirrors common rename pool other (reconcileName name span sites)
      (reconcileName name span (sites.map (BindingSite.rename rename))) := by
  unfold reconcileName
  refine .get_bind ?_
  rw [findRefused?_rename htwins hsites]
  cases findRefused? pool sites with
  | some refused => exact .throw htwins (Rejection.rename_ofAscription ..)
  | none =>
    dsimp only [Option.map_none]
    rw [filter_ascription_rename (fun _ => Option.isSome_map) sites,
      filter_ascription_rename (fun _ => Option.isNone_map) sites]
    cases hfilter : sites.filter fun site => site.ascription.isSome with
    | nil =>
      rw [List.map_nil, map_inferred_rename]
      refine .joinAll_bind htwins (sites.map inferred) ?_ (fun joined => ?_) (fun joined => ?_) ?_
      · exact List.forall_mem_map.mpr fun site hsite => (hsites site hsite).1
      · cases joined with
        | none => exact .throw _
        | some _ => exact .pure _
      · cases joined with
        | none => exact .throw _
        | some _ => exact .pure _
      · intro joined later otherLater _ htwins hjoined
        cases joined with
        | none => exact .throw htwins rename_incompatible
        | some type => exact .pure htwins (type, TypeOrigin.inferred) (hjoined type rfl)
    | cons first rest =>
      have hknown : HasTypes.Known pool (first :: rest) := fun site hsite =>
        hsites site (List.mem_of_mem_filter (hfilter ▸ hsite))
      refine .bind (mirrors_upperAscription htwins hknown) (fun bound => .get_bind fun _ => ?_)
        (fun bound => .get_bind fun _ => ?_) ?_
      · split
        · exact .throw _
        · exact .pure _
      · split
        · exact .throw _
        · exact .pure _
      · intro bound later otherLater hkept htwins hbound
        refine .get_bind ?_
        have hunascribed : HasTypes.Known later (sites.filter fun site => site.ascription.isNone) :=
          fun site hsite => HasTypes.known_mono hkept (hsites site (List.mem_of_mem_filter hsite))
        have habove := findAbove?_rename htwins (known_effective hbound) hunascribed
        rw [← effective_rename rename bound] at habove
        rw [show HasTypes.rename rename bound = bound.rename rename from rfl, habove]
        cases findAbove? later bound.effective
            (sites.filter fun site => site.ascription.isNone) with
        | some site =>
          refine .throw htwins ?_
          rw [Rejection.rename_ofAscription, ← effective_rename rename]
          rfl
        | none =>
          dsimp only [Option.map_none]
          rw [effective_rename]
          exact .pure htwins (bound.effective, TypeOrigin.ascribed) (known_effective hbound)

end BindingSite

theorem Environment.known_insert? {environment next : Environment} {entry : EnvironmentEntry}
    (hinsert : environment.insert? entry = some next) (hknown : HasTypes.Known pool environment)
    (hentry : pool.contains entry.type) : HasTypes.Known pool next := by
  intro other hmem
  rw [entries_of_insert? hinsert] at hmem
  rcases List.mem_append.mp hmem with hold | hnew
  · exact hknown other hold
  · cases List.mem_singleton.mp hnew
    exact hentry

/-- Names get the same types in either pool. -/
theorem Evidence.mirrors_reconcileNames (evidence : Evidence) (span : Span) (names : List Name)
    (environment : Environment) (htwins : Pool.Twins common rename pool other)
    (hevidence : HasTypes.Known pool evidence.findings)
    (henvironment : HasTypes.Known pool environment) :
    Mirrors common rename pool other (evidence.reconcileNames span names environment)
      ((evidence.rename rename).reconcileNames span names (environment.rename rename)) := by
  induction names generalizing pool other environment with
  | nil => exact .pure htwins environment henvironment
  | cons name names ih =>
    have hsites : HasTypes.Known pool (evidence.sites name) := fun site hsite =>
      hevidence site (List.mem_of_mem_filter hsite)
    have hcount : (evidence.rename rename).alternatives = evidence.alternatives := rfl
    simp only [reconcileNames, sites_rename, List.length_map, hcount]
    split
    · exact .throw htwins (Rejection.rename_ofFault _ span)
    · refine .bind (BindingSite.mirrors_reconcileName htwins hsites) (fun found => ?_)
        (fun found => ?_) ?_
      · split
        · exact extends_reconcileNames _ _ _ _
        · exact .throw _
      · split
        · exact extends_reconcileNames _ _ _ _
        · exact .throw _
      · rintro ⟨type, origin⟩ later otherLater hkept htwins htype
        have hentry : EnvironmentEntry.rename rename ⟨name, type, origin⟩ =
            ⟨name, rename type, origin⟩ := rfl
        have hinsert := environment.insert?_rename rename ⟨name, type, origin⟩
        rw [hentry] at hinsert
        dsimp only [HasTypes.rename]
        rw [hinsert]
        cases hfound : environment.insert? ⟨name, type, origin⟩ with
        | none => exact .throw htwins (Rejection.rename_ofFault _ span)
        | some next =>
          exact ih next htwins (HasTypes.known_mono hkept hevidence)
            (Environment.known_insert? hfound (HasTypes.known_mono hkept henvironment) htype)

end OrPattern
