import OrPattern.Diagnostic
import OrPattern.Rejection.Text

namespace OrPattern

def Cause.code : Cause → ErrorCode
  | .shape _ => .e3001
  | .noCommonType .. => .e3002
  | .ascription .. => .e3003
  | .scrutinee .. => .e3004
  | .fault _ => .e9001

/-- What holds of every rejection of this kind. -/
def Cause.notes : Cause → List String
  | .shape _ =>
    ["every alternative of an or-pattern must bind the same variables at the same positions"]
  | .noCommonType .. => ["these types have no common supertype"]
  | .ascription .. =>
    ["an ascription is an upper bound for the variable in every alternative"]
  | .scrutinee .. => []
  | .fault _ => ["this is a compiler bug; please report it"]

def Cause.suggestions (spelling : Spelling) : Cause → List Suggestion
  | .noCommonType name _ =>
    [⟨"make " ++ quote (spelling.name name)
      ++ " bind values of related types in every alternative", 1⟩]
  | .ascription name _ _ found =>
    [⟨"widen the ascription on " ++ quote (spelling.name name) ++ " to a supertype of "
      ++ quote (spelling.type found) ++ ", or remove it", 0⟩]
  | .shape _ | .scrutinee .. | .fault _ => []

def Implicated.label (spelling : Spelling) (isPrimary : Bool) (site : Implicated) : Label :=
  ⟨isPrimary, site.span,
    match site.type with
    | some type =>
      "alternative " ++ ordinal site.alternative ++ ": " ++ quote (spelling.type type)
    | none => "alternative " ++ ordinal site.alternative⟩

namespace Rejection

def code (rejection : Rejection) : ErrorCode := rejection.cause.code

/-- The first site is where the error is; without a site it is the pattern. -/
def labels (rejection : Rejection) (spelling : Spelling) : List Label :=
  match rejection.sites with
  | first :: rest => first.label spelling true :: rest.map (Implicated.label spelling false)
  | [] => [⟨true, rejection.span, "in this pattern"⟩]

def diagnostic (rejection : Rejection) (spelling : Spelling) : Diagnostic where
  code := rejection.code
  message := rejection.message spelling
  labels := rejection.labels spelling
  notes := rejection.cause.notes
  suggestions := rejection.cause.suggestions spelling

/-- The rejection in one line, without a pool. -/
def render (rejection : Rejection) : String :=
  "[" ++ rejection.code.text ++ "] " ++ rejection.message .byNumber

end Rejection

end OrPattern
