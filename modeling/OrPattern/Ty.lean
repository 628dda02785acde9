namespace OrPattern

/-- The number of a type in a pool. Tuples and records are entered once, so two
    of them are the same type exactly when their numbers are equal. -/
structure Ty where
  index : Nat
deriving DecidableEq, Repr

namespace Ty

def i8 : Ty := ⟨0⟩

def i16 : Ty := ⟨1⟩

def i32 : Ty := ⟨2⟩

def i64 : Ty := ⟨3⟩

def f32 : Ty := ⟨4⟩

def f64 : Ty := ⟨5⟩

def bool : Ty := ⟨6⟩

def char : Ty := ⟨7⟩

def str : Ty := ⟨8⟩

/-- The tuple with no element. -/
def unit : Ty := ⟨9⟩

/-- The type below every other. -/
def never : Ty := ⟨10⟩

/-- The first number that a declared or composed type can get. -/
def firstDynamic : Nat := 11

def isPrimitive (type : Ty) : Bool := type.index < firstDynamic

/-- The fixed spelling of a type that every pool holds. -/
def primitiveName? (type : Ty) : Option String :=
  ["i8", "i16", "i32", "i64", "f32", "f64", "bool", "char", "str", "()", "never"][type.index]?

/-- The form in which a report without a pool writes a type. -/
def debug (type : Ty) : String :=
  match type.primitiveName? with
  | some name => s!"TypeId({name})"
  | none => s!"TypeId({type.index})"

end Ty

end OrPattern
