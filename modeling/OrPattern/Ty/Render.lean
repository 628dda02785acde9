import OrPattern.Name.Table
import OrPattern.Ty.Pool

namespace OrPattern

namespace Form

/-- The text of a form, given the texts of the types and names in it. -/
def render (typeText : Ty → String) (nameText : Name → String) : Form → String
  | .int width => "i" ++ toString width.bits
  | .float width => "f" ++ toString width.bits
  | .bool => "bool"
  | .char => "char"
  | .str => "str"
  | .never => "never"
  | .tuple [element] => "(" ++ typeText element ++ ",)"
  | .tuple elements => "(" ++ ", ".intercalate (elements.map typeText) ++ ")"
  | .record [] => "\x7b\x7d"
  | .record fields =>
    "\x7b " ++ ", ".intercalate (fields.map fun (name, type) => nameText name ++ ": " ++ typeText type)
      ++ " \x7d"
  | .classDecl name _ | .enumDecl name _ _ => nameText name

end Form

namespace Pool

/-- The text of a type, spelled out to the given depth. -/
def renderWithin (pool : Pool) (names : NameTable) : Nat → Ty → String
  | 0, _ => "<unknown>"
  | depth + 1, type =>
    match pool.form? type with
    | some form => form.render (pool.renderWithin names depth) names.lookup
    | none => "<unknown>"

/-- The text of a type as users write it. A type that is not part of itself is
    spelled out in no more steps than there are types, and one for a number that
    the pool has not given out. -/
def render (pool : Pool) (names : NameTable) (type : Ty) : String :=
  pool.renderWithin names (pool.size + 1) type

end Pool

end OrPattern
