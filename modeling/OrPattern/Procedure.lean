import OrPattern.Environment
import OrPattern.Literal
import OrPattern.Path

namespace OrPattern

/-- What becomes of a value on its way from the type of its alternative to the
    type that all alternatives share. -/
inductive Conversion where
  | identity
  /-- From a type to one properly above it. -/
  | upcast
deriving DecidableEq, Repr

def Conversion.between (native exposed : Ty) : Conversion :=
  if native = exposed then .identity else .upcast

theorem Conversion.between_eq_identity_iff {native exposed : Ty} :
    Conversion.between native exposed = .identity ↔ native = exposed := by
  simp [between]

/-- Where the value of a name is found, the type its alternative gives it and the
    type it is seen at. -/
structure Slot where
  name : Name
  path : Path
  native : Ty
  exposed : Ty
  conversion : Conversion
deriving DecidableEq, Repr

/-- A shortcut over the arms of a procedure by the tag of the value at a path.
    The arms that test no tag there are tried for every value. -/
structure Dispatch where
  path : Path
  /-- Each arm that tests a tag there, with that tag, in the order of the arms. -/
  tagged : List (Name × Nat)
  untagged : List Nat
deriving DecidableEq, Repr

mutual

/-- A decision procedure: its arms are tried from the left, and the first that
    accepts a value decides. All paths start at the root of the value, those of
    nested procedures too. -/
structure Procedure where
  arms : List Arm
  dispatch : Option Dispatch
  /-- The order in which a selection lists what it binds. -/
  names : List Name

/-- What one alternative became: tests, outer before inner, then the places of
    what it binds. -/
structure Arm where
  alternative : Nat
  checks : List Check
  slots : List Slot

inductive Check where
  /-- The value there is a variant with this tag. -/
  | tag (path : Path) (tag : Name)
  /-- The value there equals this literal. -/
  | literal (path : Path) (value : Literal)
  /-- The nested procedure accepts; what it binds is bound by the arm too. -/
  | firstOf (path : Path) (procedure : Procedure)

end

/-- Sees a slot at the type that an environment gives its name. -/
def Slot.retarget (environment : Environment) (slot : Slot) : Slot :=
  match environment.type? slot.name with
  | some exposed => { slot with exposed, conversion := .between slot.native exposed }
  | none => slot

mutual

/-- Sees every slot, those of nested procedures too, at the types of an
    environment. -/
def Procedure.retarget (environment : Environment) : Procedure → Procedure
  | ⟨arms, dispatch, names⟩ => ⟨Arm.retargetAll environment arms, dispatch, names⟩

def Arm.retargetAll (environment : Environment) : List Arm → List Arm
  | [] => []
  | ⟨alternative, checks, slots⟩ :: rest =>
    ⟨alternative, Check.retargetAll environment checks, slots.map (Slot.retarget environment)⟩
      :: Arm.retargetAll environment rest

def Check.retargetAll (environment : Environment) : List Check → List Check
  | [] => []
  | .firstOf path procedure :: rest =>
    .firstOf path (procedure.retarget environment) :: Check.retargetAll environment rest
  | .tag path tag :: rest => .tag path tag :: Check.retargetAll environment rest
  | .literal path value :: rest => .literal path value :: Check.retargetAll environment rest

end

mutual

/-- The path at which a name is bound. Every arm binds it at the same path, so
    the first one is asked: its own slots, then its nested procedures. -/
def Procedure.bindingPath? (name : Name) : Procedure → Option Path
  | ⟨[], _, _⟩ => none
  | ⟨⟨_, checks, slots⟩ :: _, _, _⟩ =>
    match slots.find? fun slot => slot.name = name with
    | some slot => some slot.path
    | none => Check.bindingPath? name checks

def Check.bindingPath? (name : Name) : List Check → Option Path
  | [] => none
  | .firstOf _ procedure :: rest =>
    match procedure.bindingPath? name with
    | some path => some path
    | none => Check.bindingPath? name rest
  | .tag .. :: rest | .literal .. :: rest => Check.bindingPath? name rest

end

/-- A compiled pattern: how to run it, and what it binds. -/
structure Compiled where
  procedure : Procedure
  environment : Environment

end OrPattern
