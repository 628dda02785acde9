import OrPattern.Literal
import OrPattern.Path

namespace OrPattern

/-- A value that patterns are tested on. -/
inductive Value where
  | int (value : Int64)
  | bool (value : Bool)
  | char (value : Char)
  | str (contents : Name)
  /-- An instance of a class, of which only the class is known. -/
  | object (className : Name)
  | variant (tag : Name) (payload : Value)
  | tuple (elements : List Value)
  | record (fields : List (Name × Value))
deriving Repr

namespace Value

/-- The value with no component. -/
def unit : Value := .tuple []

def tag? : Value → Option Name
  | .variant tag _ => some tag
  | _ => none

/-- The component one step away. Of two fields with one name the first
    counts. -/
def project : Value → Step → Option Value
  | .variant _ payload, .payload => some payload
  | .tuple elements, .element index => elements[index]?
  | .record fields, .field name => fields.lookup name
  | _, _ => none

/-- The component at a path; each step starts from where the last one led. -/
def at? : Value → Path → Option Value
  | value, [] => some value
  | value, step :: path =>
    match value.project step with
    | some component => component.at? path
    | none => none

/-- A path can be followed in two goes. -/
theorem at?_append (value : Value) (path rest : Path) :
    value.at? (path ++ rest) = (value.at? path).bind fun component => component.at? rest := by
  induction path generalizing value with
  | nil => rfl
  | cons step path ih =>
    simp only [List.cons_append, at?]
    cases value.project step with
    | none => rfl
    | some component => exact ih component

/-- Whether a value is the one that a literal stands for. -/
def matchesLiteral : Value → Literal → Bool
  | .int a, .int b => a == b
  | .bool a, .bool b => a == b
  | .char a, .char b => a == b
  | .str a, .str b => a == b
  | _, _ => false

end Value

end OrPattern
