import OrPattern.Environment.Reconcile
import OrPattern.Procedure.Emit
import OrPattern.Shape.Certify

namespace OrPattern

/-- What findings in so many alternatives say about the names of a certificate. -/
def Certificate.evidence (certificate : Certificate) (alternatives : Nat) (findings : Findings) :
    Evidence :=
  ⟨certificate.names, alternatives, findings⟩

/-- Compiles alternatives whose bindings are collected by the given step: they
    must agree in shape, fit the scrutinee and reconcile their types, in this
    order. -/
def compileWith (options : Options) (alternatives : List Pattern) (base : Path) (span : Span)
    (collect : Certificate → Attempt Findings) : Attempt Compiled := do
  let certificate ← Pattern.certify alternatives base span
  let evidence := certificate.evidence alternatives.length (← collect certificate)
  let environment ← evidence.reconcile span
  let procedure ← evidence.emit options environment base alternatives
  return ⟨procedure, environment⟩

/-- Compiles an or-pattern, which needs two alternatives at least. -/
def compileOrWith (options : Options) (alternatives : List Pattern) (base : Path) (span : Span)
    (collect : Certificate → Attempt Findings) : Attempt Compiled :=
  if alternatives.length < 2 then
    throw (.ofShape (.degenerateOr alternatives.length) span
      (alternatives.zipIdx.map fun (pattern, index) => ⟨index, pattern.span, none⟩))
  else compileWith options alternatives base span collect

end OrPattern
