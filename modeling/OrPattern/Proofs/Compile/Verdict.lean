import OrPattern.Proofs.Compile.Conflict
import OrPattern.Rejection.Report

namespace OrPattern

open Attempt Pool

namespace Attempt

variable {α β : Type}

end Attempt

namespace BindingSite

/-- What a site has to say about the type of its name. -/
def types (site : BindingSite) : Ty × Option Ty := (site.inferred, site.ascription)

variable {pool later : Pool} {name : Name} {span : Span} {sites others : List BindingSite}
  {top other : Ty}

/-- Every ascription admits the type at its own place. -/
def Admitted (pool : Pool) (sites : List BindingSite) : Prop :=
  ∀ site ∈ sites, ∀ ascribed ∈ site.ascription, pool.isSubtype site.inferred ascribed = true

/-- A type that is ascribed and above all that are. -/
def Highest (pool : Pool) (sites : List BindingSite) (top : Ty) : Prop :=
  (∃ site ∈ sites, site.ascription = some top) ∧
    ∀ site ∈ sites, ∀ ascribed ∈ site.ascription, pool.isSubtype ascribed top = true

theorem Highest.unique (hpool : pool.WellFormed) (htop : Highest pool sites top)
    (hother : Highest pool sites other) : top = other := by
  obtain ⟨⟨site, hsite, hstated⟩, habove⟩ := htop
  obtain ⟨⟨site', hsite', hstated'⟩, habove'⟩ := hother
  exact (hpool.isSubtype_iff.mp (habove' site hsite top hstated)).antisymm hpool
    (hpool.isSubtype_iff.mp (habove site' hsite' other hstated'))

theorem Highest.ascribed (htop : Highest pool sites top) :
    ∃ site ∈ sites, site.ascription ≠ none := by
  obtain ⟨⟨site, hsite, hstated⟩, -⟩ := htop
  exact ⟨site, hsite, by rw [hstated]; exact nofun⟩

/-- What the sites of a name come to, told without their order. -/
inductive Settles (pool : Pool) (sites : List BindingSite) :
    Except ErrorCode (Ty × TypeOrigin) × Pool → Prop where
  | refused (refused : ¬ Admitted pool sites) : Settles pool sites (.error .e3003, pool)
  | joined (admitted : Admitted pool sites)
      (unascribed : ∀ site ∈ sites, site.ascription = none) :
      Settles pool sites
        ((pool.joinAll (sites.map inferred)).1.elim (.error .e3002) fun type =>
          .ok (type, .inferred), (pool.joinAll (sites.map inferred)).2)
  | bounded {top : Ty} (admitted : Admitted pool sites) (highest : Highest pool sites top) :
      Settles pool sites
        (if sites.all fun site => pool.isSubtype site.effective top then .ok (top, .ascribed)
          else .error .e3003, pool)
  | apart (admitted : Admitted pool sites) (ascribed : ∃ site ∈ sites, site.ascription ≠ none)
      (apart : ∀ top, ¬ Highest pool sites top) :
      Settles pool sites
        ((pool.joinAll (sites.filterMap ascription)).1.elim (.error .e3002) fun _ => .error .e3003,
          (pool.joinAll (sites.filterMap ascription)).2)

section Ascribed

variable {first : BindingSite} {rest : List BindingSite}
  (hascribed : sites.filter (fun site => site.ascription.isSome) = first :: rest)
include hascribed

end Ascribed

end BindingSite

end OrPattern
