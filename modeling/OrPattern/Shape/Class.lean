import OrPattern.Pattern

namespace OrPattern

/-- What a pattern node demands of the value at its place. Wildcards, bindings
    and nested or-patterns demand nothing and have no class. -/
inductive ShapeClass where
  | literal (kind : LiteralKind)
  | variant
  | tuple (arity : Nat)
  /-- The mentioned fields in ascending order; with `rest` there may be more. -/
  | record (fields : List Name) (rest : Bool)
deriving DecidableEq, Repr

namespace ShapeClass

/-- Whether one value can have both shapes. A closed record has exactly the
    fields it mentions, an open one at least those. -/
def compatible : ShapeClass → ShapeClass → Bool
  | .literal a, .literal b => a = b
  | .variant, .variant => true
  | .tuple a, .tuple b => a = b
  | .record a false, .record b false => a = b
  | .record a true, .record b false => a.all b.contains
  | .record a false, .record b true => b.all a.contains
  | .record _ true, .record _ true => true
  | _, _ => false

/-- It does not matter which of the two shapes is named first. -/
theorem compatible_comm (a b : ShapeClass) : a.compatible b = b.compatible a := by
  cases a with
  | record fields rest =>
    cases b with
    | record others otherRest => cases rest <;> cases otherRest <;> simp [compatible, eq_comm]
    | _ => cases rest <;> rfl
  | variant => cases b <;> simp [compatible]
  | _ => cases b <;> simp [compatible, eq_comm]

def describe (nameText : Name → String) : ShapeClass → String
  | .literal kind => kind.describe ++ " literal"
  | .variant => "variant"
  | .tuple 1 => "tuple of 1 element"
  | .tuple arity => s!"tuple of {arity} elements"
  | .record fields rest =>
    let listed := fields.map nameText ++ if rest then [".."] else []
    "record \x7b " ++ ", ".intercalate listed ++ " \x7d"

end ShapeClass

end OrPattern
