import OrPattern.Diagnostic.Code
import OrPattern.Span

namespace OrPattern

/-- A remark on a piece of source. The primary ones mark the error itself, the
    others what it has to do with. -/
structure Label where
  isPrimary : Bool
  span : Span
  message : String
deriving DecidableEq, Repr

/-- A way out; the lower the priority, the likelier it is to help. -/
structure Suggestion where
  message : String
  priority : Nat
deriving DecidableEq, Repr

/-- An error with all that is needed to show it. -/
structure Diagnostic where
  code : ErrorCode
  message : String
  labels : List Label := []
  notes : List String := []
  suggestions : List Suggestion := []
deriving DecidableEq, Repr

/-- One line per label, after an arrow if it is primary. -/
def Label.render (label : Label) : String :=
  "\n  " ++ (if label.isPrimary then "-->" else "   ") ++ " " ++ label.span.render ++ ": "
    ++ label.message

/-- The error, then labels, notes and suggestions, each on a line of its own. -/
def Diagnostic.render (diagnostic : Diagnostic) : String :=
  "error [" ++ diagnostic.code.text ++ "]: " ++ diagnostic.message
    ++ "".intercalate (diagnostic.labels.map Label.render)
    ++ "".intercalate (diagnostic.notes.map fun note => "\n  = note: " ++ note)
    ++ "".intercalate (diagnostic.suggestions.map fun suggestion =>
      "\n  = help: " ++ suggestion.message)

end OrPattern
