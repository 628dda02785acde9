import OrPattern.Name
import OrPattern.Ty

namespace OrPattern

inductive IntWidth where
  | w8
  | w16
  | w32
  | w64
deriving DecidableEq, Repr

def IntWidth.bits : IntWidth → Nat
  | .w8 => 8
  | .w16 => 16
  | .w32 => 32
  | .w64 => 64

inductive FloatWidth where
  | w32
  | w64
deriving DecidableEq, Repr

def FloatWidth.bits : FloatWidth → Nat
  | .w32 => 32
  | .w64 => 64

/-- How a type is made. Its parts are numbers of the same pool, so one step of
    comparison suffices to tell two forms apart. -/
inductive Form where
  | int (width : IntWidth)
  | float (width : FloatWidth)
  | bool
  | char
  | str
  | never
  | tuple (elements : List Ty)
  /-- The fields stand in ascending name order, each name once. -/
  | record (fields : List (Name × Ty))
  | classDecl (name : Name) (parent : Option Ty)
  /-- Every variant has one payload; a tag alone carries the unit type. -/
  | enumDecl (name : Name) (parent : Option Ty) (variants : List (Name × Ty))
deriving DecidableEq, Repr

namespace Form

def parent? : Form → Option Ty
  | .classDecl _ parent | .enumDecl _ parent _ => parent
  | _ => none

/-- Declared types are told apart by declaration, not by what they contain. -/
def isNominal : Form → Bool
  | .classDecl .. | .enumDecl .. => true
  | _ => false

/-- The types a tuple or record is made of. -/
def components : Form → List Ty
  | .tuple elements => elements
  | .record fields => fields.map Prod.snd
  | _ => []

end Form

end OrPattern
