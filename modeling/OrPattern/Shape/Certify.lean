import OrPattern.Shape.Agreement

namespace OrPattern

namespace Pattern

mutual

/-- The outline of a pattern at a path and position. A nested or-pattern has to
    be in agreement with itself first; it then binds its names, at the paths its
    own alternatives agree on, and demands no shape. -/
def outline : Pattern → Path → Position → Except Rejection Outline
  | wildcard _, _, _ => .ok {}
  | bind name _ span, path, _ => .ok { bindings := [⟨name, path, span⟩] }
  | literal value span, path, position =>
    .ok { shapes := [⟨position, path, .literal value.kind, span⟩] }
  | variant tag inner span, path, position => do
    let found ← inner.outline (path ++ [.payload]) (position ++ [.payload tag])
    return { shapes := [⟨position, path, .variant, span⟩] } ++ found
  | tuple elements span, path, position => do
    let found ← outlineElements elements 0 path position
    return { shapes := [⟨position, path, .tuple elements.length, span⟩] } ++ found
  | record fields rest span, path, position => do
    let found ← outlineFields fields path position
    let mentioned := sortByName id (fields.map FieldOf.name)
    return { shapes := [⟨position, path, .record mentioned rest, span⟩] } ++ found
  | or alternatives span, path, _ => do
    let outlined ← outlineAlternatives alternatives 0 path span
    let agreed ← Outlined.agree span outlined
    return { bindings := agreed.bindings.map fun (name, path) => ⟨name, path, span⟩ }

/-- The outlines of tuple elements, of which the first has the given index. -/
def outlineElements : List Pattern → Nat → Path → Position → Except Rejection Outline
  | [], _, _, _ => .ok {}
  | element :: rest, index, path, position => do
    let first ← element.outline (path ++ [.element (clipIndex index)])
      (position ++ [.element (clipIndex index)])
    let others ← outlineElements rest (index + 1) path position
    return first ++ others

def outlineFields : List (FieldOf Pattern) → Path → Position → Except Rejection Outline
  | [], _, _ => .ok {}
  | ⟨name, pattern, _⟩ :: rest, path, position => do
    let first ← pattern.outline (path ++ [.field name]) (position ++ [.field name])
    let others ← outlineFields rest path position
    return first ++ others

/-- The alternatives of an or-pattern, of which the first has the given number.
    Positions start anew below an or-pattern, and no alternative may bind a name
    twice. -/
def outlineAlternatives : List Pattern → Nat → Path → Span → Except Rejection (List Outlined)
  | [], _, _, _ => .ok []
  | pattern :: rest, index, base, span => do
    let outline ← pattern.outline base []
    outline.checkRepeats index span
    let others ← outlineAlternatives rest (index + 1) base span
    return ⟨index, pattern.span, outline⟩ :: others

end

/-- What the alternatives of an or-pattern agree to bind, whatever their types.
    A single alternative is as good as several here. -/
def certify (alternatives : List Pattern) (base : Path) (span : Span) :
    Except Rejection Certificate := do
  let outlined ← outlineAlternatives alternatives 0 base span
  Outlined.agree span outlined

end Pattern

end OrPattern
