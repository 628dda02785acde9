import OrPattern.Rejection
import OrPattern.Ty.Render

namespace OrPattern

/-- How types and names are spelled in a message. -/
structure Spelling where
  type : Ty → String
  name : Name → String

namespace Spelling

/-- Types and names as users write them. -/
def ofPool (pool : Pool) (names : NameTable) : Spelling := ⟨pool.render names, names.lookup⟩

/-- Types and names by number, for when no pool is at hand. -/
def byNumber : Spelling := ⟨Ty.debug, fun name => s!"#{name.number}"⟩

end Spelling

/-- A text between backticks. -/
def quote (text : String) : String := "`" ++ text ++ "`"

/-- The number of an alternative as users count, from one. -/
def ordinal (alternative : Nat) : String := toString (alternative + 1)

namespace ShapeProblem

def message (spelling : Spelling) : ShapeProblem → String
  | .missingBinding name presentIn absentFrom =>
    "variable " ++ quote (spelling.name name) ++ " is bound in alternative " ++ ordinal presentIn
      ++ " but not in alternative " ++ ordinal absentFrom
  | .pathMismatch name expected found alternative =>
    "variable " ++ quote (spelling.name name) ++ " is bound at "
      ++ quote (found.render spelling.name) ++ " in alternative " ++ ordinal alternative
      ++ " but at " ++ quote (expected.render spelling.name) ++ " elsewhere"
  | .incompatibleShape path (left, leftShape) (right, rightShape) =>
    "alternatives " ++ ordinal left ++ " and " ++ ordinal right
      ++ " have incompatible shapes at " ++ quote (path.render spelling.name) ++ ": "
      ++ leftShape.describe spelling.name ++ " vs " ++ rightShape.describe spelling.name
  | .duplicateBinding name alternative =>
    "variable " ++ quote (spelling.name name) ++ " is bound more than once in alternative "
      ++ ordinal alternative
  | .degenerateOr count =>
    "or-pattern needs at least two alternatives, found " ++ toString count

end ShapeProblem

namespace ScrutineeProblem

def message (spelling : Spelling) : ScrutineeProblem → String
  | .notASumType => "a variant pattern needs a sum type"
  | .unknownTag tag => "no variant " ++ quote (spelling.name tag)
  | .notATuple arity => "a tuple pattern of " ++ toString arity ++ " elements needs a tuple type"
  | .tupleArity expected found =>
    "expected " ++ toString expected ++ " elements, found " ++ toString found
  | .notARecord => "a record pattern needs a record type"
  | .unknownField field => "no field " ++ quote (spelling.name field)
  | .missingFields fields =>
    "pattern does not mention "
      ++ ", ".intercalate (fields.map fun field => quote (spelling.name field))
      ++ "; add them or " ++ quote ".."
  | .literalMismatch literal =>
    literal.kind.describe ++ " literal is not a value of this type"

end ScrutineeProblem

namespace Fault

/-- Faults are for whoever mends the compiler: names stand as numbers. -/
def message : Fault → String
  | .strayPath name found certified =>
    "binding #" ++ toString name.number ++ " collected at " ++ found.debug
      ++ " but certified at " ++ certified.debug
  | .uncertified name =>
    "binding #" ++ toString name.number ++ " was not certified by shape validation"
  | .noNestedSlot name => "nested binding #" ++ toString name.number ++ " has no slot"
  | .siteCount name sites alternatives =>
    "binding #" ++ toString name.number ++ " has " ++ toString sites ++ " sites across "
      ++ toString alternatives ++ " alternatives"
  | .certifiedTwice name => "binding #" ++ toString name.number ++ " certified twice"
  | .noSite name alternative =>
    "binding #" ++ toString name.number ++ " has no site in alternative " ++ toString alternative
  | .notInEnvironment name =>
    "binding #" ++ toString name.number ++ " missing from the environment"
  | .nestedNotCompiled path => "nested or-pattern at " ++ path.debug ++ " was never compiled"
  | .other message => message

end Fault

namespace Cause

def message (spelling : Spelling) : Cause → String
  | .shape problem => problem.message spelling
  | .noCommonType name types =>
    "variable " ++ quote (spelling.name name) ++ " has incompatible types across alternatives: "
      ++ ", ".intercalate (types.map fun (alternative, type) =>
        quote (spelling.type type) ++ " (alternative " ++ ordinal alternative ++ ")")
  | .ascription name alternative ascribed found =>
    "type ascription " ++ quote (spelling.type ascribed) ++ " on " ++ quote (spelling.name name)
      ++ " does not admit " ++ quote (spelling.type found) ++ " in alternative "
      ++ ordinal alternative
  | .scrutinee alternative path expected problem =>
    "alternative " ++ ordinal alternative ++ " does not fit type "
      ++ quote (spelling.type expected) ++ " at " ++ quote (path.render spelling.name) ++ ": "
      ++ problem.message spelling
  | .fault reason => "internal error in pattern compilation: " ++ reason.message

end Cause

namespace Rejection

def message (rejection : Rejection) (spelling : Spelling) : String :=
  rejection.cause.message spelling

end Rejection

end OrPattern
