import OrPattern.Ty.Pool

namespace OrPattern

namespace Pool

/-- A declared type and one on its chain of parents. -/
inductive Descends (pool : Pool) : Ty → Ty → Prop where
  | parent {type parent : Ty} (declared : pool.parent? type = some parent) :
      Descends pool type parent
  | further {type parent ancestor : Ty} (declared : pool.parent? type = some parent)
      (rest : Descends pool parent ancestor) : Descends pool type ancestor

/-- The rules of the subtype order, one for each way a type can be below
    another. -/
inductive Below (pool : Pool) : Ty → Ty → Prop where
  | refl (type : Ty) : Below pool type type
  | never (type : Ty) : Below pool .never type
  | int {sub sup : Ty} {a b : IntWidth} (subForm : pool.form? sub = some (.int a))
      (supForm : pool.form? sup = some (.int b)) (wider : a.bits ≤ b.bits) : Below pool sub sup
  | float {sub sup : Ty} {a b : FloatWidth} (subForm : pool.form? sub = some (.float a))
      (supForm : pool.form? sup = some (.float b)) (wider : a.bits ≤ b.bits) : Below pool sub sup
  | nominal {sub sup : Ty} (descends : pool.Descends sub sup) : Below pool sub sup
  | tuple {sub sup : Ty} {xs ys : List Ty} (subForm : pool.form? sub = some (.tuple xs))
      (supForm : pool.form? sup = some (.tuple ys)) (arity : xs.length = ys.length)
      (nonempty : xs ≠ [])
      (elements : ∀ (index : Nat) (x y : Ty),
        xs[index]? = some x → ys[index]? = some y → Below pool x y) : Below pool sub sup
  /-- The function picks, for each field of the upper record, the type that the
      lower one has there. -/
  | record {sub sup : Ty} {xs ys : List (Name × Ty)} (pick : Name → Ty)
      (subForm : pool.form? sub = some (.record xs))
      (supForm : pool.form? sup = some (.record ys)) (nonempty : ys ≠ [])
      (present : ∀ (name : Name) (y : Ty), (name, y) ∈ ys → (name, pick name) ∈ xs)
      (fields : ∀ (name : Name) (y : Ty), (name, y) ∈ ys → Below pool (pick name) y) :
      Below pool sub sup

end Pool

end OrPattern
