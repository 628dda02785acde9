import OrPattern.Name

namespace OrPattern

/-- One step from a value to one of its components. A step into a payload does
    not name the tag, so that `A(x) | B(x)` binds `x` at a single path. -/
inductive Step where
  | payload
  | element (index : Nat)
  | field (name : Name)
deriving DecidableEq, Repr

/-- The steps from the matched value to a component; no step is the value
    itself. -/
abbrev Path := List Step

/-- The largest index of an element that a path holds, in 32 bits. -/
@[simp] def maxIndex : Nat := 4294967295

/-- The index under which a path holds an element: all elements past the largest
    index share that one. -/
def clipIndex (index : Nat) : Nat := min index maxIndex

theorem clipIndex_of_le {index : Nat} (hsmall : index ≤ maxIndex) : clipIndex index = index :=
  Nat.min_eq_left hsmall

namespace Step

def render (nameText : Name → String) : Step → String
  | .payload => "payload"
  | .element index => toString index
  | .field name => nameText name

/-- The form in which a fault report writes a step. -/
def debug : Step → String
  | .payload => "Payload"
  | .element index => s!"TupleIndex({index})"
  | .field name => s!"Field({name.debug})"

end Step

namespace Path

/-- The form shown to users: `$` for the root, then each step after a dot. -/
def render (nameText : Name → String) (path : Path) : String :=
  path.foldl (fun text step => text ++ "." ++ step.render nameText) "$"

/-- The form in which a fault report writes a path. -/
def debug (path : Path) : String :=
  "[" ++ ", ".intercalate (path.map Step.debug) ++ "]"

end Path

end OrPattern
