import OrPattern.Name
import OrPattern.Ty

namespace OrPattern

/-- What settled the type of a name. -/
inductive TypeOrigin where
  /-- The join of the types at its places. -/
  | inferred
  /-- An ascription. -/
  | ascribed
deriving DecidableEq, Repr

/-- The type that a name has whichever alternative matched. -/
structure EnvironmentEntry where
  name : Name
  type : Ty
  origin : TypeOrigin
deriving DecidableEq, Repr

/-- The names that a pattern binds with their types, in the order of the leftmost
    alternative. -/
structure Environment where
  entries : List EnvironmentEntry := []
deriving DecidableEq, Repr

namespace Environment

def entry? (environment : Environment) (name : Name) : Option EnvironmentEntry :=
  environment.entries.find? fun entry => entry.name = name

def type? (environment : Environment) (name : Name) : Option Ty :=
  (environment.entry? name).map EnvironmentEntry.type

def contains (environment : Environment) (name : Name) : Bool :=
  environment.entries.any fun entry => entry.name = name

def position? (environment : Environment) (name : Name) : Option Nat :=
  environment.entries.findIdx? fun entry => entry.name = name

def names (environment : Environment) : List Name :=
  environment.entries.map EnvironmentEntry.name

def size (environment : Environment) : Nat := environment.entries.length

def isEmpty (environment : Environment) : Bool := environment.entries.isEmpty

/-- Adds an entry at the end; nothing if the name is there already. -/
def insert? (environment : Environment) (entry : EnvironmentEntry) : Option Environment :=
  if environment.contains entry.name then none
  else some ⟨environment.entries ++ [entry]⟩

theorem names_of_insert? {environment next : Environment} {entry : EnvironmentEntry}
    (hinsert : environment.insert? entry = some next) :
    next.names = environment.names ++ [entry.name] := by
  unfold insert? at hinsert
  split at hinsert
  · cases hinsert
  · cases hinsert
    simp [names]

end Environment

end OrPattern
