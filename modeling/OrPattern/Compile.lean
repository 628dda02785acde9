import OrPattern.Evidence.Collect

namespace OrPattern

namespace Pattern

/-- Compiles a pattern against the type of the values it will be tested on. A
    pattern that is no or-pattern is its own single alternative. -/
def compile (options : Options) (pattern : Pattern) (scrutinee : Ty) : Attempt Compiled :=
  match pattern with
  | or alternatives span =>
    compileOrWith options alternatives [] span fun certificate =>
      collectAlternatives options alternatives certificate 0 scrutinee []
  | pattern =>
    compileWith options [pattern] [] pattern.span fun certificate =>
      collectAlternatives options [pattern] certificate 0 scrutinee []

end Pattern

/-- Compiles patterns one after the other over a shared pool. A rejected pattern
    leaves the others as they are. -/
def compileBatch (options : Options) :
    List (Pattern × Ty) → Pool → List (Except Rejection Compiled) × Pool
  | [], pool => ([], pool)
  | (pattern, scrutinee) :: rest, pool =>
    match (pattern.compile options scrutinee).runOn pool with
    | (result, pool) =>
      match compileBatch options rest pool with
      | (results, pool) => (result :: results, pool)

end OrPattern
