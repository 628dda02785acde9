import Mathlib.Data.List.Find
import OrPattern.Proofs.Compile.Still
import OrPattern.Proofs.Naming.Join

namespace OrPattern

open HasNames (withNames)

namespace Attempt

variable {α β : Type} [HasNames α] [HasNames β] {names : Name → Name} {pool : Pool}

/-- If the one step enters nothing, then the other one ends alike on the pool under
    other names, and enters nothing either. -/
def Follows (names : Name → Name) (pool : Pool) (attempt other : Attempt α) : Prop :=
  attempt.Still pool →
    other.runOn (withNames names pool) =
      (withNames names (attempt.runOn pool).1, withNames names pool)

namespace Follows

theorem pure (value : α) : Follows names pool (pure value) (pure (withNames names value)) :=
  fun _ => rfl

theorem throw {rejection other : Rejection} (hrejection : withNames names rejection = other) :
    Follows names pool (throw rejection : Attempt α) (throw other) := by
  subst hrejection
  exact fun _ => rfl

theorem liftM {attempt other : Except Rejection α} (hattempt : withNames names attempt = other) :
    Follows names pool (liftM attempt) (liftM other) := by
  subst hattempt
  cases attempt <;> exact fun _ => rfl

theorem bind {attempt other : Attempt α} {next otherNext : α → Attempt β}
    (hattempt : Follows names pool attempt other) (hextends : attempt.Extends)
    (hextends' : ∀ value, (next value).Extends)
    (hnext : ∀ value, Follows names pool (next value) (otherNext (withNames names value))) :
    Follows names pool (attempt >>= next) (other >>= otherNext) := by
  intro hstill
  unfold Still at hstill
  rw [runOn_bind] at hstill ⊢
  rw [runOn_bind]
  have hfirst := hextends pool
  rcases hrun : attempt.runOn pool with ⟨_ | value, middle⟩ <;>
    simp only [hrun] at hfirst hstill ⊢
  · subst hstill
    have hother := hattempt (congrArg Prod.snd hrun)
    rw [hother, hrun]
    rfl
  · obtain rfl : middle = pool := hfirst.still (hextends' value middle) hstill
    have hother := hattempt (congrArg Prod.snd hrun)
    rw [hother, hrun]
    exact hnext value hstill

theorem get_bind {next otherNext : Pool → Attempt α}
    (hnext : Follows names pool (next pool) (otherNext (withNames names pool))) :
    Follows names pool (get >>= next) (get >>= otherNext) := by
  unfold Follows Still
  rw [runOn_get_bind, runOn_get_bind]
  exact hnext

theorem joinAll_bind (hnames : Function.Injective names) (hpool : pool.WellFormed)
    {types : List Ty} {next otherNext : Option Ty → Attempt α}
    (hextends : ∀ joined, (next joined).Extends)
    (hnext : ∀ joined, Follows names pool (next joined) (otherNext joined)) :
    Follows names pool (modifyGet (fun pool => pool.joinAll types) >>= next)
      (modifyGet (fun pool => pool.joinAll types) >>= otherNext) := by
  refine @bind (Option Ty) _ _ _ _ _ _ _ _ _ ?_ (fun pool => Pool.extends_joinAll pool types)
    hextends fun joined => ?_
  · intro hstill
    have hjoin := Pool.joinAll_withNames hnames hpool hstill
    have hsame : withNames names (pool.joinAll types).1 = (pool.joinAll types).1 :=
      congrFun Option.map_id _
    have hrun : ∀ start : Pool, runOn (modifyGet fun pool => pool.joinAll types) start =
        (.ok (start.joinAll types).1, (start.joinAll types).2) := fun _ => rfl
    rw [hrun, hrun, hjoin]
    exact Prod.ext (congrArg Except.ok hsame.symm) rfl
  · rw [show withNames names joined = joined from congrFun Option.map_id _]
    exact hnext joined

end Follows

end Attempt

open Attempt

variable {names : Name → Name} (hnames : Function.Injective names) {pool : Pool}

namespace BindingSite

variable {name : Name} {span : Span} {sites : List BindingSite}

/-- A search for a site finds the same one under other names. -/
theorem find?_withNames (names : Name → Name) {wanted other : BindingSite → Bool}
    (hwanted : ∀ site, other (withNames names site) = wanted site) (sites : List BindingSite) :
    (withNames names sites).find? other = (sites.find? wanted).map (withNames names) := by
  refine List.find?_map.trans (congrArg _ ?_)
  exact List.find?_congr fun site _ => hwanted site

theorem filter_withNames (names : Name → Name) {kept other : BindingSite → Bool}
    (hkept : ∀ site, other (withNames names site) = kept site) (sites : List BindingSite) :
    (withNames names sites).filter other = withNames names (sites.filter kept) := by
  refine List.filter_map.trans (congrArg _ ?_)
  exact List.filter_congr fun site _ => hkept site

theorem map_withNames {β : Type} (names : Name → Name) {view : BindingSite → β}
    (hview : ∀ site, view (withNames names site) = view site) (sites : List BindingSite) :
    (withNames names sites).map view = sites.map view := by
  refine List.map_map.trans ?_
  exact List.map_congr_left fun site _ => hview site

theorem incompatible_withNames (names : Name → Name) (name : Name) (span : Span)
    (sites : List BindingSite) :
    withNames names (incompatible name span sites) =
      incompatible (names name) span (withNames names sites) := by
  have hsites : (withNames names sites).map (fun site =>
        ({ site.implicate with type := some site.effective } : Implicated)) =
      sites.map fun site => { site.implicate with type := some site.effective } :=
    map_withNames names (fun _ => rfl) sites
  rw [incompatible, incompatible, hsites]
  rfl

section Searches

include hnames
variable (hpool : pool.WellFormed)
include hpool

theorem findRefused?_withNames (sites : List BindingSite) :
    findRefused? (withNames names pool) (withNames names sites) =
      (findRefused? pool sites).map (withNames names) := by
  induction sites with
  | nil => rfl
  | cons site rest ih =>
    obtain ⟨name, alternative, ascription, inferred, path, span, nested⟩ := site
    simp only [findRefused?, withNames, List.map_cons, List.findSome?_cons] at ih ⊢
    cases ascription with
    | none => exact ih
    | some ascribed =>
      have hadmits := Pool.isSubtype_withNames hnames hpool inferred ascribed
      simp only [withNames] at hadmits
      simp only [hadmits]
      cases pool.isSubtype inferred ascribed with
      | false => rfl
      | true => exact ih

theorem findUpper?_withNames (sites : List BindingSite) :
    findUpper? (withNames names pool) (withNames names sites) =
      (findUpper? pool sites).map (withNames names) := by
  refine find?_withNames names (fun candidate => ?_) sites
  simp only [Pool.isSubtype_withNames hnames hpool]
  exact List.all_map

theorem findAbove?_withNames (bound : Ty) (sites : List BindingSite) :
    findAbove? (withNames names pool) bound (withNames names sites) =
      (findAbove? pool bound sites).map (withNames names) :=
  find?_withNames names (fun site => by rw [Pool.isSubtype_withNames hnames hpool]; rfl) sites

end Searches

section Steps

include hnames
variable (hpool : pool.WellFormed)
include hpool

theorem follows_upperAscription (first : BindingSite) (rest : List BindingSite) :
    Follows names pool (upperAscription name span sites first rest)
      (upperAscription (names name) span (withNames names sites) (withNames names first)
        (withNames names rest)) := by
  unfold upperAscription
  refine .get_bind ?_
  have hupper := findUpper?_withNames hnames hpool (first :: rest)
  have heffective : (withNames names (first :: rest)).map effective =
      (first :: rest).map effective := map_withNames names (fun _ => rfl) _
  rw [withNames_cons] at hupper heffective
  rw [hupper, heffective]
  cases findUpper? pool (first :: rest) with
  | some upper => exact .pure upper
  | none =>
    refine .joinAll_bind hnames hpool (fun joined => ?_) fun joined => ?_
    · cases joined with
      | none => exact .throw _
      | some _ => exact .get_bind fun _ => .throw _
    · cases joined with
      | none => exact .throw (incompatible_withNames names name span sites)
      | some _ =>
        refine .get_bind (.throw ?_)
        have habove := findAbove?_withNames hnames hpool first.effective (first :: rest)
        rw [withNames_cons] at habove
        rw [show (withNames names first).effective = first.effective from rfl, habove]
        cases findAbove? pool first.effective (first :: rest) <;> rfl

theorem follows_reconcileName (sites : List BindingSite) :
    Follows names pool (reconcileName name span sites)
      (reconcileName (names name) span (withNames names sites)) := by
  unfold reconcileName
  refine .get_bind ?_
  rw [findRefused?_withNames hnames hpool]
  cases findRefused? pool sites with
  | some refused => exact .throw rfl
  | none =>
    dsimp only [Option.map_none]
    rw [filter_withNames names (fun _ => rfl) sites, filter_withNames names (fun _ => rfl) sites,
      map_withNames names (fun _ => rfl) sites]
    cases sites.filter fun site => site.ascription.isSome with
    | nil =>
      refine .joinAll_bind hnames hpool (fun joined => ?_) fun joined => ?_
      · cases joined with
        | none => exact .throw _
        | some _ => exact .pure _
      · cases joined with
        | none => exact .throw (incompatible_withNames names name span sites)
        | some type => exact .pure (type, TypeOrigin.inferred)
    | cons first rest =>
      refine .bind (follows_upperAscription hnames hpool first rest)
        (extends_upperAscription name span sites first rest) (fun bound => .get_bind fun _ => ?_)
        fun bound => .get_bind ?_
      · split
        · exact .throw _
        · exact .pure _
      · rw [show (withNames names bound).effective = bound.effective from rfl,
          findAbove?_withNames hnames hpool]
        cases findAbove? pool bound.effective (sites.filter fun site => site.ascription.isNone) with
        | some site => exact .throw rfl
        | none => exact .pure (bound.effective, TypeOrigin.ascribed)

end Steps

end BindingSite

section Environments

variable (environment : Environment) (name : Name)
include hnames

namespace Environment

theorem entry?_withNames :
    Environment.entry? (withNames names environment) (names name) =
      (environment.entry? name).map (withNames names) := by
  simp only [withNames, Environment.entry?, List.find?_map, Function.comp_def, hnames.eq_iff]

theorem type?_withNames : (withNames names environment).type? (names name) =
    environment.type? name := by
  rw [type?, entry?_withNames hnames, Option.map_map]
  rfl

theorem insert?_withNames (entry : EnvironmentEntry) :
    (withNames names environment).insert? (withNames names entry) =
      (environment.insert? entry).map (withNames names) := by
  have hcontains : (withNames names environment).contains (withNames names entry).name =
      environment.contains entry.name := by
    simp only [contains, withNames, List.any_map, Function.comp_def, hnames.eq_iff]
  unfold insert?
  rw [hcontains]
  split
  · rfl
  · simp [withNames]

end Environment

end Environments

namespace Evidence

variable (evidence : Evidence)

include hnames

theorem sites_withNames (name : Name) :
    (withNames names evidence).sites (names name) = withNames names (evidence.sites name) :=
  BindingSite.filter_withNames names
    (fun site => decide_eq_decide.mpr (hnames.eq_iff (a := site.name))) evidence.findings.sites

theorem follows_reconcileNames (hpool : pool.WellFormed) (span : Span) (bound : List Name)
    (environment : Environment) :
    Follows names pool (evidence.reconcileNames span bound environment)
      ((withNames names evidence).reconcileNames span (withNames names bound)
        (withNames names environment)) := by
  induction bound generalizing environment with
  | nil => exact .pure environment
  | cons name bound ih =>
    have hcount : (withNames names evidence).alternatives = evidence.alternatives := rfl
    have hlength : (withNames names (evidence.sites name)).length = (evidence.sites name).length :=
      List.length_map _
    rw [show withNames names (name :: bound) = names name :: withNames names bound from
      withNames_cons names name bound]
    simp only [reconcileNames, sites_withNames hnames, hlength, hcount]
    split
    · exact .throw rfl
    · refine .bind (BindingSite.follows_reconcileName hnames hpool _)
        (BindingSite.extends_reconcileName name span _) (fun found => ?_) ?_
      · split
        · exact extends_reconcileNames _ _ _ _
        · exact .throw _
      · rintro ⟨type, origin⟩
        have hinsert := environment.insert?_withNames hnames ⟨name, type, origin⟩
        simp only [withNames, id_eq] at hinsert ⊢
        rw [hinsert]
        cases environment.insert? ⟨name, type, origin⟩ with
        | none => exact .throw rfl
        | some next => exact ih next

end Evidence

end OrPattern
