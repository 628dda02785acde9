import OrPattern.Path
import OrPattern.Shape.Class

namespace OrPattern

/-- Why alternatives cannot stand side by side. Alternatives are counted from
    zero. -/
inductive ShapeProblem where
  | missingBinding (name : Name) (presentIn absentFrom : Nat)
  | pathMismatch (name : Name) (expected found : Path) (alternative : Nat)
  | incompatibleShape (path : Path) (left right : Nat × ShapeClass)
  | duplicateBinding (name : Name) (alternative : Nat)
  | degenerateOr (count : Nat)
deriving DecidableEq, Repr

/-- Why a pattern node describes no value of the type at its place. -/
inductive ScrutineeProblem where
  | notASumType
  | unknownTag (tag : Name)
  | notATuple (arity : Nat)
  | tupleArity (expected found : Nat)
  | notARecord
  | unknownField (field : Name)
  /-- A closed record pattern leaves out these fields of the type. -/
  | missingFields (fields : List Name)
  | literalMismatch (literal : Literal)
deriving DecidableEq, Repr

/-- A disagreement between two phases about what both derive from one pattern. -/
inductive Fault where
  | strayPath (name : Name) (found certified : Path)
  | uncertified (name : Name)
  | noNestedSlot (name : Name)
  | siteCount (name : Name) (sites alternatives : Nat)
  | certifiedTwice (name : Name)
  | noSite (name : Name) (alternative : Nat)
  | notInEnvironment (name : Name)
  | nestedNotCompiled (path : Path)
  | other (message : String)
deriving DecidableEq, Repr

/-- What is wrong with a pattern. -/
inductive Cause where
  | shape (problem : ShapeProblem)
  /-- The types of a name, one for every alternative, have no type above all. -/
  | noCommonType (name : Name) (types : List (Nat × Ty))
  /-- In this alternative the name has a type that the ascription does not
      admit. -/
  | ascription (name : Name) (alternative : Nat) (ascribed found : Ty)
  | scrutinee (alternative : Nat) (path : Path) (expected : Ty) (problem : ScrutineeProblem)
  | fault (fault : Fault)
deriving DecidableEq, Repr

/-- An alternative that has part in a rejection, with the type it contributes
    where types are at issue. -/
structure Implicated where
  alternative : Nat
  span : Span
  type : Option Ty := none
deriving DecidableEq, Repr

/-- The refusal of a pattern. Nothing of the pattern is compiled then. -/
structure Rejection where
  cause : Cause
  /-- The or-pattern, or whole pattern, that was being compiled. -/
  span : Span
  /-- In ascending order of the alternatives. -/
  sites : List Implicated
deriving DecidableEq, Repr

namespace Implicated

/-- Puts a site before the first one of a later alternative. -/
def insert (site : Implicated) : List Implicated → List Implicated
  | [] => [site]
  | other :: rest =>
    if site.alternative < other.alternative then site :: other :: rest
    else other :: insert site rest

/-- The sites in ascending order of alternatives; sites of one alternative keep
    their order. -/
def sort (sites : List Implicated) : List Implicated :=
  sites.foldl (fun sorted site => insert site sorted) []

end Implicated

namespace Rejection

def ofCause (cause : Cause) (span : Span) (sites : List Implicated) : Rejection :=
  ⟨cause, span, Implicated.sort sites⟩

def ofShape (problem : ShapeProblem) (span : Span) (sites : List Implicated) : Rejection :=
  ofCause (.shape problem) span sites

/-- The types listed are those of the sites. -/
def ofTypes (name : Name) (span : Span) (sites : List Implicated) : Rejection :=
  let sorted := Implicated.sort sites
  let types := sorted.filterMap fun site => site.type.map fun type => (site.alternative, type)
  ofCause (.noCommonType name types) span sorted

/-- An ascription that rejects the type at its own place has one site only. -/
def ofAscription (name : Name) (span : Span) (bound conflicting : Implicated)
    (ascribed found : Ty) : Rejection :=
  let conflict := { conflicting with type := some found }
  let sites :=
    if bound.alternative = conflicting.alternative then [conflict]
    else [{ bound with type := some ascribed }, conflict]
  ofCause (.ascription name conflicting.alternative ascribed found) span sites

def ofScrutinee (alternative : Nat) (path : Path) (expected : Ty)
    (problem : ScrutineeProblem) (span : Span) : Rejection :=
  ofCause (.scrutinee alternative path expected problem) span [⟨alternative, span, some expected⟩]

def ofFault (fault : Fault) (span : Span) : Rejection :=
  ofCause (.fault fault) span []

/-- The names the rejection is about. -/
def names (rejection : Rejection) : List Name :=
  match rejection.cause with
  | .shape (.missingBinding name _ _) | .shape (.pathMismatch name _ _ _)
  | .shape (.duplicateBinding name _) | .noCommonType name _ | .ascription name _ _ _ => [name]
  | .shape (.incompatibleShape ..) | .shape (.degenerateOr _) | .scrutinee .. | .fault _ => []

/-- The alternatives that have part in it, each once. -/
def alternatives (rejection : Rejection) : List Nat :=
  (rejection.sites.map Implicated.alternative).eraseReps

end Rejection

end OrPattern
