import OrPattern.Rejection

namespace OrPattern

/-- One step of a position: like a path, but with the tags kept, since the
    payloads of different variants are unrelated values. -/
inductive PositionStep where
  | payload (tag : Name)
  | element (index : Nat)
  | field (name : Name)
deriving DecidableEq, Repr

abbrev Position := List PositionStep

/-- A name bound by an alternative. -/
structure Occurrence where
  name : Name
  path : Path
  span : Span
deriving DecidableEq, Repr

/-- A node with a shape class, and where it sits. -/
structure ShapeSite where
  position : Position
  path : Path
  shape : ShapeClass
  span : Span
deriving DecidableEq, Repr

/-- What one alternative binds and what shapes it demands, both in the order of
    the pattern. -/
structure Outline where
  bindings : List Occurrence := []
  shapes : List ShapeSite := []
deriving DecidableEq, Repr

def Outline.append (a b : Outline) : Outline := ⟨a.bindings ++ b.bindings, a.shapes ++ b.shapes⟩

instance : Append Outline := ⟨Outline.append⟩

namespace Occurrence

/-- The first occurrence of a name that was bound before, after the one that
    bound it; `seen` comes before `rest`. -/
def firstRepeated (seen : List Occurrence) : List Occurrence → Option (Occurrence × Occurrence)
  | [] => none
  | occurrence :: rest =>
    match seen.find? fun earlier => earlier.name = occurrence.name with
    | some earlier => some (earlier, occurrence)
    | none => firstRepeated (seen ++ [occurrence]) rest

end Occurrence

namespace Outline

/-- The binding of a name; no name is bound twice when this is asked. -/
def binding? (outline : Outline) (name : Name) : Option Occurrence :=
  outline.bindings.find? fun occurrence => occurrence.name = name

/-- The last of the nodes at a position: only a repeated field puts several
    there, or elements past the largest index. -/
def shapeAt? (outline : Outline) (position : Position) : Option ShapeSite :=
  (outline.shapes.filter fun site => site.position = position).getLast?

/-- Refuses an alternative that binds a name twice. -/
def checkRepeats (outline : Outline) (alternative : Nat) (span : Span) : Except Rejection Unit :=
  match Occurrence.firstRepeated [] outline.bindings with
  | some (earlier, later) =>
    .error (.ofShape (.duplicateBinding later.name alternative) span
      [⟨alternative, earlier.span, none⟩, ⟨alternative, later.span, none⟩])
  | none => .ok ()

end Outline

end OrPattern
