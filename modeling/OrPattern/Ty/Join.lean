import OrPattern.Ty.Order

namespace OrPattern

namespace Pool

/-- Joins two sequences pair by pair, up to the first pair without a join. The
    types entered on the way stay in the pool. -/
def joinElements (join : Pool → Ty → Ty → Option Ty × Pool) :
    Pool → List Ty → List Ty → Option (List Ty) × Pool
  | pool, x :: xs, y :: ys =>
    match join pool x y with
    | (some type, pool) =>
      match joinElements join pool xs ys with
      | (some types, pool) => (some (type :: types), pool)
      | (none, pool) => (none, pool)
    | (none, pool) => (none, pool)
  | pool, _, _ => (some [], pool)

/-- Joins the fields that two records share, leaving out those without a
    join. -/
def joinFields (join : Pool → Ty → Ty → Option Ty × Pool)
    (ys : List (Name × Ty)) :
    Pool → List (Name × Ty) → List (Name × Ty) × Pool
  | pool, [] => ([], pool)
  | pool, (name, x) :: xs =>
    match fieldType? name ys with
    | none => joinFields join ys pool xs
    | some y =>
      match join pool x y with
      | (some type, pool) =>
        match joinFields join ys pool xs with
        | (fields, pool) => ((name, type) :: fields, pool)
      | (none, pool) => joinFields join ys pool xs

/-- The join, looked into to the given depth. -/
def joinWithin : Nat → Pool → Ty → Ty → Option Ty × Pool
  | 0, pool, _, _ => (none, pool)
  | depth + 1, pool, a, b =>
    if pool.isSubtype a b then (some b, pool)
    else if pool.isSubtype b a then (some a, pool)
    else
      match pool.form? a, pool.form? b with
      | some (.tuple xs), some (.tuple ys) =>
        if xs.length = ys.length then
          match joinElements (joinWithin depth) pool xs ys with
          | (some types, pool) =>
            match pool.tuple types with
            | (type, pool) => (some type, pool)
          | (none, pool) => (none, pool)
        else (none, pool)
      | some (.record xs), some (.record ys) =>
        match joinFields (joinWithin depth) ys pool xs with
        | ([], pool) => (none, pool)
        | (fields, pool) =>
          match pool.record fields with
          | (type, pool) => (some type, pool)
      | some aForm, some bForm =>
        if aForm.isNominal && bForm.isNominal then
          ((pool.ancestors b).find? (pool.ancestors a).contains, pool)
        else (none, pool)
      | _, _ => (none, pool)

/-- A number above all that are given out and all that tuples and records name,
    the least one. No descent into types leaves the numbers below it, whatever is
    entered on the way. -/
def horizon (pool : Pool) : Nat :=
  (pool.entries.toList.flatMap fun entry => entry.form.components).foldl
    (fun bound type => max bound (type.index + 1)) pool.size

/-- The least type above both, if there is one. There is no type above all
    others, so there need not be one; an empty record is above no other, so
    records that share no joinable field have none either. The type found may be
    new to the pool, and new types may have been entered even if none is found.
    A descent that ends meets a pair of types again only after a number below
    the horizon was given out, so the cube of the horizon bounds its steps. -/
def join (pool : Pool) (a b : Ty) : Option Ty × Pool :=
  joinWithin (pool.horizon * pool.horizon * pool.horizon + 1) pool a b

/-- Joins the types onto the one reached so far, up to the first failure. -/
def joinOnto : Pool → Ty → List Ty → Option Ty × Pool
  | pool, reached, [] => (some reached, pool)
  | pool, reached, type :: rest =>
    match pool.join reached type with
    | (some reached, pool) => joinOnto pool reached rest
    | (none, pool) => (none, pool)

/-- The join of all the types, taken from the left; none for no type. -/
def joinAll (pool : Pool) : List Ty → Option Ty × Pool
  | [] => (none, pool)
  | first :: rest => pool.joinOnto first rest

theorem join_of_isSubtype {pool : Pool} {a b : Ty} (hbelow : pool.isSubtype a b = true) :
    pool.join a b = (some b, pool) := by
  simp [join, joinWithin, hbelow]

@[simp] theorem joinAll_singleton (pool : Pool) (type : Ty) :
    pool.joinAll [type] = (some type, pool) := rfl

end Pool

end OrPattern
