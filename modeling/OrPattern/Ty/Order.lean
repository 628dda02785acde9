import OrPattern.Ty.Pool

namespace OrPattern

/-- The type of a field, searched for by halving in at most the given number of
    steps: the field in the middle tells in which half the name can stand. -/
def fieldTypeWithin? (name : Name) : Nat → List (Name × Ty) → Option Ty
  | 0, _ => none
  | bound + 1, fields =>
    match fields.drop (fields.length / 2) with
    | [] => none
    | (field, type) :: after =>
      if field = name then some type
      else if name.number < field.number then
        fieldTypeWithin? name bound (fields.take (fields.length / 2))
      else fieldTypeWithin? name bound after

/-- The type of a field among fields in ascending name order. Each step leaves
    fewer fields to search. -/
def fieldType? (name : Name) (fields : List (Name × Ty)) : Option Ty :=
  fieldTypeWithin? name fields.length fields

namespace Form

/-- One level of the order on forms, given the order on the types in them.
    Integers and floats each widen; tuples compare element by element; a record
    is below a non-empty record whose every field it has at a lower type. -/
def isBelow (below : Ty → Ty → Bool) : Form → Form → Bool
  | .int a, .int b => a.bits ≤ b.bits
  | .float a, .float b => a.bits ≤ b.bits
  | .tuple xs, .tuple ys =>
    xs.length == ys.length && (xs.zip ys).all fun (x, y) => below x y
  | .record xs, .record ys =>
    !ys.isEmpty && ys.all fun (name, y) => (fieldType? name xs).any fun x => below x y
  | _, _ => false

end Form

namespace Pool

/-- A type followed by its parents, at most the given number of them. A parent
    counts only if it was declared before. -/
def ancestorsWithin (pool : Pool) : Nat → Ty → List Ty
  | 0, type => [type]
  | bound + 1, type =>
    match pool.parent? type with
    | some parent =>
      if parent.index < type.index then type :: pool.ancestorsWithin bound parent else [type]
    | none => [type]

/-- A type followed by its chain of parents. The numbers descend along the chain,
    so it has no more parents than the number of the type. -/
def ancestors (pool : Pool) (type : Ty) : List Ty :=
  pool.ancestorsWithin type.index type

/-- The order, looked into to the given depth. The flags settle most questions
    before any form is looked at. -/
def isSubtypeWithin (pool : Pool) : Nat → Ty → Ty → Bool
  | 0, _, _ => false
  | depth + 1, sub, sup =>
    if sub = sup || sub = .never then true
    else if (pool.flags sub).isRigid || (pool.flags sup).isRigid then false
    else
      match pool.form? sub, pool.form? sup with
      | some subForm, some supForm =>
        if (pool.flags sub).nominal then (pool.ancestors sub).contains sup
        else subForm.isBelow (pool.isSubtypeWithin depth) supForm
      | _, _ => false

/-- Whether every value of `sub` is one of `sup`: the order is reflexive, has
    `never` at the bottom and follows declared parents. A part may be named
    before it is entered, so numbers need not descend from a type to its parts;
    but a descent that met a pair of types again would never end. One that ends
    therefore takes each pair of the pool once at most, and may then meet a
    number that the pool has not given out. -/
def isSubtype (pool : Pool) (sub sup : Ty) : Bool :=
  pool.isSubtypeWithin (pool.size * pool.size + 1) sub sup

@[simp] theorem isSubtype_self (pool : Pool) (type : Ty) : pool.isSubtype type type = true := by
  simp [isSubtype, isSubtypeWithin]

@[simp] theorem never_isSubtype (pool : Pool) (type : Ty) :
    pool.isSubtype .never type = true := by
  simp [isSubtype, isSubtypeWithin]

end Pool

end OrPattern
