import OrPattern.Pattern
import OrPattern.Value

namespace OrPattern

namespace Pattern

mutual

/-- Whether a pattern accepts a value: what patterns mean, whatever becomes of
    them when they are compiled. A record pattern asks for the fields it mentions
    and for no others. -/
def accepts : Pattern → Value → Bool
  | wildcard _, _ | bind .., _ => true
  | literal expected _, value => value.matchesLiteral expected
  | variant tag inner _, .variant found payload => tag = found && inner.accepts payload
  | variant .., _ => false
  | tuple elements _, .tuple values => acceptsElements elements values
  | tuple .., _ => false
  | record fields _ _, value => acceptsFields fields value
  | or alternatives _, value => acceptsAny alternatives value

/-- Whether the patterns accept the values one by one, as many of each. -/
def acceptsElements : List Pattern → List Value → Bool
  | [], [] => true
  | pattern :: patterns, value :: values =>
    pattern.accepts value && acceptsElements patterns values
  | _, _ => false

/-- Whether every mentioned field is there and accepted. -/
def acceptsFields : List (FieldOf Pattern) → Value → Bool
  | [], _ => true
  | ⟨name, pattern, _⟩ :: rest, value =>
    (match value.project (.field name) with
      | some component => pattern.accepts component
      | none => false) && acceptsFields rest value

/-- Whether some alternative accepts the value. -/
def acceptsAny : List Pattern → Value → Bool
  | [], _ => false
  | alternative :: rest, value => alternative.accepts value || acceptsAny rest value

end

theorem acceptsAny_eq_any (alternatives : List Pattern) (value : Value) :
    acceptsAny alternatives value = alternatives.any fun alternative => alternative.accepts value := by
  induction alternatives with
  | nil => rfl
  | cons alternative rest ih => simp [acceptsAny, ih]

end Pattern

end OrPattern
