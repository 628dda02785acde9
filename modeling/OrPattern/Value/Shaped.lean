import OrPattern.Ty.View
import OrPattern.Value

namespace OrPattern

/-- A value has the components that its type promises: an enum's value is one of
    the variants, a tuple has all elements and a record all declared fields.
    Other types promise no component. -/
inductive Value.Shaped (pool : Pool) : Ty → Value → Prop where
  | variant {type payloadType : Ty} {variants : List (Name × Ty)} {tag : Name}
      {payload : Value} (declared : pool.variants? type = some variants)
      (tagged : variants.lookup tag = some payloadType)
      (inner : Value.Shaped pool payloadType payload) :
      Value.Shaped pool type (.variant tag payload)
  | tuple {type : Ty} {types : List Ty} {values : List Value}
      (declared : pool.elements? type = some types) (arity : types.length = values.length)
      (inner : ∀ (index : Nat) (elementType : Ty) (value : Value),
        types[index]? = some elementType → values[index]? = some value →
        Value.Shaped pool elementType value) :
      Value.Shaped pool type (.tuple values)
  | record {type : Ty} {types : List (Name × Ty)} {fields : List (Name × Value)}
      (declared : pool.fields? type = some types)
      (present : ∀ field ∈ types, (fields.lookup field.1).isSome)
      (inner : ∀ (name : Name) (fieldType : Ty) (value : Value),
        (name, fieldType) ∈ types → fields.lookup name = some value →
        Value.Shaped pool fieldType value) :
      Value.Shaped pool type (.record fields)
  | other {type : Ty} {value : Value} (noVariants : pool.variants? type = none)
      (noElements : pool.elements? type = none) (noFields : pool.fields? type = none) :
      Value.Shaped pool type value

end OrPattern
