import OrPattern.Ty.Join

namespace OrPattern

namespace Pool

/-- One pool grows into another by declarations, tuples, records and joins, each
    on types that are already there. -/
inductive Grows : Pool → Pool → Prop where
  | refl (pool : Pool) : Grows pool pool
  | declareClass {start pool : Pool} (grown : Grows start pool) (name : Name)
      (parent : Option Ty) (known : ∀ type ∈ parent, pool.contains type) :
      Grows start (pool.declareClass name parent).2
  | declareEnum {start pool : Pool} (grown : Grows start pool) (name : Name)
      (parent : Option Ty) (variants : List (Name × Ty))
      (known : ∀ type ∈ parent, pool.contains type)
      (payloads : ∀ variant ∈ variants, pool.contains variant.2) :
      Grows start (pool.declareEnum name parent variants).2
  | tuple {start pool : Pool} (grown : Grows start pool) (elements : List Ty)
      (known : ∀ type ∈ elements, pool.contains type) : Grows start (pool.tuple elements).2
  | record {start pool : Pool} (grown : Grows start pool) (fields : List (Name × Ty))
      (known : ∀ field ∈ fields, pool.contains field.2) : Grows start (pool.record fields).2
  | join {start pool : Pool} (grown : Grows start pool) (a b : Ty)
      (left : pool.contains a) (right : pool.contains b) : Grows start (pool.join a b).2

/-- A pool that is made from the primitive types alone. -/
def Reachable (pool : Pool) : Prop := Grows initial pool

end Pool

end OrPattern
