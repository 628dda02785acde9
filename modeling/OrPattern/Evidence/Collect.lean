import OrPattern.Compile.Phases
import OrPattern.Ty.View

namespace OrPattern

/-- Whose bindings are being collected: the alternative, and what it has agreed
    to bind with the others. -/
structure CollectContext where
  certificate : Certificate
  alternative : Nat

namespace CollectContext

/-- The site of a name, which must be bound where the alternatives agreed. -/
def site (context : CollectContext) (name : Name) (ascription : Option Ty)
    (inferred : Ty) (path : Path) (span : Span) (nested : Bool) :
    Except Rejection BindingSite :=
  match context.certificate.path? name with
  | none => .error (.ofFault (.uncertified name) span)
  | some certified =>
    if certified = path then
      .ok ⟨name, context.alternative, ascription, inferred, path, span, nested⟩
    else .error (.ofFault (.strayPath name path certified) span)

def mismatch (context : CollectContext) (path : Path) (expected : Ty) (span : Span)
    (problem : ScrutineeProblem) : Rejection :=
  .ofScrutinee context.alternative path expected problem span

/-- The sites that a nested or-pattern stands for: one for each entry of its
    environment, at the path where its procedure binds the name. A type that an
    ascription settled inside counts as ascribed outside. -/
def nestedSites (context : CollectContext) (procedure : Procedure) (span : Span) :
    List EnvironmentEntry → Except Rejection (List BindingSite)
  | [] => .ok []
  | entry :: rest => do
    match procedure.bindingPath? entry.name with
    | none => .error (.ofFault (.noNestedSlot entry.name) span)
    | some path =>
      let ascription := if entry.origin = .ascribed then some entry.type else none
      let first ← context.site entry.name ascription entry.type path span true
      let others ← context.nestedSites procedure span rest
      return first :: others

end CollectContext

namespace Pattern

mutual

/-- Lays a pattern over the type expected at a path and collects what it binds.
    A nested or-pattern is compiled in full against the type at its place. -/
def collect (options : Options) : Pattern → CollectContext → Ty → Path → Attempt Findings
  | wildcard _, _, _, _ => return {}
  | bind name ascription span, context, expected, path => do
    let site ← context.site name ascription expected path span false
    return { sites := [site] }
  | literal value span, context, expected, path => do
    if (← get).literalFits expected value then return {}
    else throw (context.mismatch path expected span (.literalMismatch value))
  | variant tag inner span, context, expected, path => do
    match (← get).variants? expected with
    | none => throw (context.mismatch path expected span .notASumType)
    | some variants =>
      match variants.lookup tag with
      | none => throw (context.mismatch path expected span (.unknownTag tag))
      | some payload => inner.collect options context payload (path ++ [.payload])
  | tuple elements span, context, expected, path => do
    match (← get).elements? expected with
    | none => throw (context.mismatch path expected span (.notATuple elements.length))
    | some types =>
      if types.length = elements.length then
        collectElements options elements context types 0 path
      else
        throw (context.mismatch path expected span (.tupleArity types.length elements.length))
  | record fields rest span, context, expected, path => do
    match (← get).fields? expected with
    | none => throw (context.mismatch path expected span .notARecord)
    | some types =>
      let findings ← collectFields options fields context expected types path
      let mentioned := fields.map FieldOf.name
      let missing := (types.map Prod.fst).filter fun name => !mentioned.contains name
      if rest || missing.isEmpty then return findings
      else throw (context.mismatch path expected span (.missingFields missing))
  | or alternatives span, context, expected, path => do
    let compiled ← compileOrWith options alternatives path span fun certificate =>
      collectAlternatives options alternatives certificate 0 expected path
    let sites ← context.nestedSites compiled.procedure span compiled.environment.entries
    return ⟨sites, [⟨context.alternative, path, compiled⟩]⟩

/-- Collects from tuple elements, of which the first has the given index. -/
def collectElements (options : Options) :
    List Pattern → CollectContext → List Ty → Nat → Path → Attempt Findings
  | element :: rest, context, type :: types, index, path => do
    let first ← element.collect options context type (path ++ [.element (clipIndex index)])
    let others ← collectElements options rest context types (index + 1) path
    return first ++ others
  | _, _, _, _, _ => return {}

/-- Collects from the mentioned fields of a record type. -/
def collectFields (options : Options) :
    List (FieldOf Pattern) → CollectContext → Ty → List (Name × Ty) → Path →
      Attempt Findings
  | [], _, _, _, _ => return {}
  | ⟨name, pattern, span⟩ :: rest, context, expected, types, path => do
    match types.lookup name with
    | none => throw (context.mismatch path expected span (.unknownField name))
    | some type =>
      let first ← pattern.collect options context type (path ++ [.field name])
      let others ← collectFields options rest context expected types path
      return first ++ others

/-- Collects from alternatives, of which the first has the given number. -/
def collectAlternatives (options : Options) :
    List Pattern → Certificate → Nat → Ty → Path → Attempt Findings
  | [], _, _, _, _ => return {}
  | pattern :: rest, certificate, index, expected, base => do
    let first ← pattern.collect options ⟨certificate, index⟩ expected base
    let others ← collectAlternatives options rest certificate (index + 1) expected base
    return first ++ others

end

/-- The evidence that alternatives give for the names of a certificate. -/
def evidence (options : Options) (alternatives : List Pattern) (certificate : Certificate)
    (scrutinee : Ty) (base : Path) : Attempt Evidence := do
  let findings ← collectAlternatives options alternatives certificate 0 scrutinee base
  return certificate.evidence alternatives.length findings

end Pattern

end OrPattern
