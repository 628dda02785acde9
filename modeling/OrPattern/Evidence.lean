import OrPattern.Procedure
import OrPattern.Span

namespace OrPattern

/-- One place in one alternative where a name is bound. -/
structure BindingSite where
  name : Name
  alternative : Nat
  ascription : Option Ty
  /-- The type that the scrutinee gives the place. -/
  inferred : Ty
  path : Path
  span : Span
  /-- It stands for what a nested or-pattern binds. -/
  nested : Bool
deriving DecidableEq, Repr

/-- A type stated by the pattern goes before the type found at the place. -/
def BindingSite.effective (site : BindingSite) : Ty := site.ascription.getD site.inferred

/-- A nested or-pattern of an alternative, compiled. -/
structure NestedPattern where
  alternative : Nat
  path : Path
  compiled : Compiled

/-- What laying a pattern over a type brings to light, in the order of the
    pattern. -/
structure Findings where
  sites : List BindingSite := []
  nested : List NestedPattern := []

def Findings.append (a b : Findings) : Findings := ⟨a.sites ++ b.sites, a.nested ++ b.nested⟩

instance : Append Findings := ⟨Findings.append⟩

/-- All that is known about an or-pattern before its names get their types. -/
structure Evidence where
  /-- The names that the alternatives agree to bind. -/
  names : List Name
  /-- How many alternatives there are. -/
  alternatives : Nat
  findings : Findings

namespace Evidence

/-- The places of a name in the order of the alternatives. -/
def sites (evidence : Evidence) (name : Name) : List BindingSite :=
  evidence.findings.sites.filter fun site => site.name = name

def site? (evidence : Evidence) (name : Name) (alternative : Nat) : Option BindingSite :=
  (evidence.sites name).find? fun site => site.alternative = alternative

/-- The nested or-pattern at a path of an alternative, the last one if a repeated
    field, or elements past the largest index, put several there. -/
def nested? (evidence : Evidence) (alternative : Nat) (path : Path) : Option Compiled :=
  ((evidence.findings.nested.filter fun nested =>
      nested.alternative = alternative && nested.path = path).getLast?).map
    NestedPattern.compiled

end Evidence

end OrPattern
