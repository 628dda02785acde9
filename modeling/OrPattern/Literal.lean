import OrPattern.Name

namespace OrPattern

/-- A literal pattern. There are no float literals: equality of floats is no
    sound basis for choosing an alternative. -/
inductive Literal where
  | int (value : Int64)
  | bool (value : Bool)
  | char (value : Char)
  | str (contents : Name)
deriving DecidableEq, Repr

/-- What two literals must share to be tested at the same place. -/
inductive LiteralKind where
  | int
  | bool
  | char
  | str
deriving DecidableEq, Repr

namespace Literal

def kind : Literal → LiteralKind
  | .int _ => .int
  | .bool _ => .bool
  | .char _ => .char
  | .str _ => .str

end Literal

def LiteralKind.describe : LiteralKind → String
  | .int => "integer"
  | .bool => "boolean"
  | .char => "character"
  | .str => "string"

end OrPattern
