import OrPattern.Literal
import OrPattern.Ty.Pool

namespace OrPattern

/-- Whether an integer is a value of the signed type of this width. -/
def IntWidth.holds (value : Int64) : IntWidth → Bool
  | .w8 => -128 ≤ value && value ≤ 127
  | .w16 => -32768 ≤ value && value ≤ 32767
  | .w32 => -2147483648 ≤ value && value ≤ 2147483647
  | .w64 => true

namespace Pool

/-- The variants of an enum with their payloads, in the order of declaration. -/
def variants? (pool : Pool) (type : Ty) : Option (List (Name × Ty)) :=
  match pool.form? type with
  | some (.enumDecl _ _ variants) => some variants
  | _ => none

/-- The elements of a tuple; the unit type is a tuple with none. -/
def elements? (pool : Pool) (type : Ty) : Option (List Ty) :=
  match pool.form? type with
  | some (.tuple elements) => some elements
  | _ => none

/-- The fields of a record in ascending name order. -/
def fields? (pool : Pool) (type : Ty) : Option (List (Name × Ty)) :=
  match pool.form? type with
  | some (.record fields) => some fields
  | _ => none

def payload? (pool : Pool) (type : Ty) (tag : Name) : Option Ty :=
  (pool.variants? type).bind (List.lookup tag)

def field? (pool : Pool) (type : Ty) (field : Name) : Option Ty :=
  (pool.fields? type).bind (List.lookup field)

/-- Whether a literal is a value of the type. -/
def literalFits (pool : Pool) (type : Ty) (literal : Literal) : Bool :=
  match pool.form? type, literal with
  | some (.int width), .int value => width.holds value
  | some .bool, .bool _ => true
  | some .char, .char _ => true
  | some .str, .str _ => true
  | _, _ => false

end Pool

end OrPattern
