import OrPattern.Shape.Outline

namespace OrPattern

/-- The names that an or-pattern binds, in the order of its leftmost
    alternative, each with the one path at which every alternative binds it. -/
structure Certificate where
  bindings : List (Name × Path)
deriving DecidableEq, Repr

namespace Certificate

def names (certificate : Certificate) : List Name := certificate.bindings.map Prod.fst

def path? (certificate : Certificate) (name : Name) : Option Path :=
  certificate.bindings.lookup name

def size (certificate : Certificate) : Nat := certificate.bindings.length

def isEmpty (certificate : Certificate) : Bool := certificate.bindings.isEmpty

end Certificate

/-- An alternative with its outline and its number. -/
structure Outlined where
  alternative : Nat
  span : Span
  outline : Outline
deriving DecidableEq, Repr

namespace Outlined

/-- Refuses `other` if it lacks a name of `first` or binds it elsewhere. -/
def checkBinding (first other : Outlined) (span : Span) (expected : Occurrence) :
    Except Rejection Unit :=
  match other.outline.binding? expected.name with
  | none =>
    .error (.ofShape (.missingBinding expected.name first.alternative other.alternative) span
      [⟨first.alternative, expected.span, none⟩, ⟨other.alternative, other.span, none⟩])
  | some found =>
    if found.path = expected.path then .ok ()
    else
      .error (.ofShape
        (.pathMismatch expected.name expected.path found.path other.alternative) span
        [⟨first.alternative, expected.span, none⟩, ⟨other.alternative, found.span, none⟩])

/-- Refuses `other` if it binds a name that `first` lacks. -/
def checkExtra (first other : Outlined) (span : Span) (extra : Occurrence) :
    Except Rejection Unit :=
  match first.outline.binding? extra.name with
  | some _ => .ok ()
  | none =>
    .error (.ofShape (.missingBinding extra.name other.alternative first.alternative) span
      [⟨first.alternative, first.span, none⟩, ⟨other.alternative, extra.span, none⟩])

/-- Refuses two alternatives that do not bind the same names at the same
    paths. -/
def checkNames (first other : Outlined) (span : Span) : Except Rejection Unit := do
  first.outline.bindings.forM (checkBinding first other span)
  other.outline.bindings.forM (checkExtra first other span)

/-- Refuses two alternatives if the shape at a place of the left one does not go
    with the shape that the right one has there. -/
def checkShape (left right : Outlined) (span : Span) (site : ShapeSite) : Except Rejection Unit :=
  match right.outline.shapeAt? site.position with
  | none => .ok ()
  | some other =>
    if site.shape.compatible other.shape then .ok ()
    else
      .error (.ofShape (.incompatibleShape site.path (left.alternative, site.shape)
          (right.alternative, other.shape)) span
        [⟨left.alternative, site.span, none⟩, ⟨right.alternative, other.span, none⟩])

def checkShapes (left right : Outlined) (span : Span) : Except Rejection Unit :=
  left.outline.shapes.forM (checkShape left right span)

/-- Compares the shapes of every two alternatives. Comparing with the leftmost
    would not do: a wildcard goes with `1` and with `true`, which do not go
    with each other. -/
def checkAllShapes (span : Span) : List Outlined → Except Rejection Unit
  | [] => .ok ()
  | left :: rest => do
    rest.forM fun right => checkShapes left right span
    checkAllShapes span rest

/-- What the alternatives agree to bind, unless they disagree in names, paths or
    shapes. Names are compared with the leftmost alternative before any
    shape. -/
def agree (span : Span) : List Outlined → Except Rejection Certificate
  | [] => .ok ⟨[]⟩
  | first :: rest => do
    rest.forM fun other => checkNames first other span
    checkAllShapes span (first :: rest)
    return ⟨first.outline.bindings.map fun occurrence => (occurrence.name, occurrence.path)⟩

end Outlined

end OrPattern
