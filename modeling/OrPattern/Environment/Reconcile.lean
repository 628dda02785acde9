import OrPattern.Attempt
import OrPattern.Evidence
import OrPattern.Ty.Join

namespace OrPattern

namespace BindingSite

def implicate (site : BindingSite) : Implicated := ⟨site.alternative, site.span, none⟩

/-- The rejection of a name whose types have no common supertype. -/
def incompatible (name : Name) (span : Span) (sites : List BindingSite) : Rejection :=
  .ofTypes name span (sites.map fun site => { site.implicate with type := some site.effective })

/-- The first site whose ascription does not admit the type at its own place. -/
def findRefused? (pool : Pool) (sites : List BindingSite) : Option (BindingSite × Ty) :=
  sites.findSome? fun site =>
    match site.ascription with
    | some ascribed => if pool.isSubtype site.inferred ascribed then none else some (site, ascribed)
    | none => none

/-- The first site whose type is above those of all. -/
def findUpper? (pool : Pool) (sites : List BindingSite) : Option BindingSite :=
  sites.find? fun candidate =>
    sites.all fun other => pool.isSubtype other.effective candidate.effective

/-- The first site whose type is not below the given one. -/
def findAbove? (pool : Pool) (bound : Ty) (sites : List BindingSite) : Option BindingSite :=
  sites.find? fun site => !pool.isSubtype site.effective bound

/-- The ascribed site that is above every other ascribed one. Without one, the
    ascriptions conflict with each other if they have a join at least, and are
    incompatible otherwise. The list of ascribed sites is `first :: rest`. -/
def upperAscription (name : Name) (span : Span) (sites : List BindingSite)
    (first : BindingSite) (rest : List BindingSite) : Attempt BindingSite := do
  let ascribed := first :: rest
  match findUpper? (← get) ascribed with
  | some upper => return upper
  | none =>
    match ← modifyGet fun pool => pool.joinAll (ascribed.map effective) with
    | none => throw (incompatible name span sites)
    | some _ =>
      let conflicting := (findAbove? (← get) first.effective ascribed).getD first
      throw (.ofAscription name span first.implicate conflicting.implicate first.effective
        conflicting.effective)

/-- The type of a name, given its places. Ascriptions are authoritative: each
    must admit its own place, one must be above all others, and the places
    without one must lie below it. Without any, the type is the join. -/
def reconcileName (name : Name) (span : Span) (sites : List BindingSite) :
    Attempt (Ty × TypeOrigin) := do
  match findRefused? (← get) sites with
  | some (site, ascribed) =>
    throw (.ofAscription name span site.implicate site.implicate ascribed site.inferred)
  | none =>
    match sites.filter fun site => site.ascription.isSome with
    | [] =>
      match ← modifyGet fun pool => pool.joinAll (sites.map inferred) with
      | some joined => return (joined, .inferred)
      | none => throw (incompatible name span sites)
    | first :: rest =>
      let bound ← upperAscription name span sites first rest
      let unascribed := sites.filter fun site => site.ascription.isNone
      match findAbove? (← get) bound.effective unascribed with
      | some site =>
        throw (.ofAscription name span bound.implicate site.implicate bound.effective
          site.inferred)
      | none => return (bound.effective, .ascribed)

end BindingSite

namespace Evidence

/-- Gives the names their types one after the other, each of which must have one
    site for every alternative. -/
def reconcileNames (evidence : Evidence) (span : Span) :
    List Name → Environment → Attempt Environment
  | [], environment => return environment
  | name :: names, environment => do
    let sites := evidence.sites name
    if sites.length ≠ evidence.alternatives then
      throw (.ofFault (.siteCount name sites.length evidence.alternatives) span)
    let (type, origin) ← BindingSite.reconcileName name span sites
    match environment.insert? ⟨name, type, origin⟩ with
    | some environment => evidence.reconcileNames span names environment
    | none => throw (.ofFault (.certifiedTwice name) span)

/-- One type for each name, sound for every alternative. The span is where to
    point when there is no better place. -/
def reconcile (evidence : Evidence) (span : Span) : Attempt Environment :=
  evidence.reconcileNames span evidence.names {}

end Evidence

end OrPattern
