import OrPattern.Name
import OrPattern.Name.Table
import OrPattern.Span
import OrPattern.Options
import OrPattern.Literal
import OrPattern.Ty
import OrPattern.Ty.Form
import OrPattern.Ty.Flags
import OrPattern.Ty.Pool
import OrPattern.Ty.View
import OrPattern.Ty.Order
import OrPattern.Ty.Below
import OrPattern.Ty.Join
import OrPattern.Ty.Growth
import OrPattern.Ty.Render
import OrPattern.Path
import OrPattern.Pattern
import OrPattern.Value
import OrPattern.Value.Shaped
import OrPattern.Pattern.Accepts
import OrPattern.Shape.Class
import OrPattern.Rejection
import OrPattern.Rejection.Text
import OrPattern.Diagnostic.Code
import OrPattern.Diagnostic
import OrPattern.Rejection.Report
import OrPattern.Attempt
import OrPattern.Shape.Outline
import OrPattern.Shape.Agreement
import OrPattern.Shape.Certify
import OrPattern.Environment
import OrPattern.Procedure
import OrPattern.Procedure.Select
import OrPattern.Evidence
import OrPattern.Environment.Reconcile
import OrPattern.Procedure.Emit
import OrPattern.Compile.Phases
import OrPattern.Evidence.Collect
import OrPattern.Compile
import OrPattern.Proofs.Name.Interning
import OrPattern.Proofs.Name.Lookup
import OrPattern.Proofs.Name.Ascending
import OrPattern.Proofs.Naming.Sorted
import OrPattern.Proofs.Name.Stable
import OrPattern.Proofs.Pool.WellFormed
import OrPattern.Proofs.Pool.Enter
import OrPattern.Proofs.Order.Chain
import OrPattern.Proofs.Order.Decision
import OrPattern.Proofs.Order.Laws
import OrPattern.Proofs.Pool.Renaming
import OrPattern.Proofs.Order.Growth
import OrPattern.Proofs.Pool.Embedding
import OrPattern.Proofs.Pool.Alike
import OrPattern.Proofs.Join.Bounds
import OrPattern.Proofs.Join.Kind
import OrPattern.Proofs.Join.Parts
import OrPattern.Proofs.Join.Composed
import OrPattern.Proofs.Join.Least
import OrPattern.Proofs.Join.All
import OrPattern.Proofs.Join.Alike
import OrPattern.Proofs.Join.Depth
import OrPattern.Proofs.Order.Rules
import OrPattern.Proofs.Pool.Reachable
import OrPattern.Proofs.Pool.Records
import OrPattern.Proofs.Pool.Representation
import OrPattern.Proofs.Compile.Yields
import OrPattern.Proofs.Pattern.Parts
import OrPattern.Proofs.Pattern.Nodes
import OrPattern.Proofs.Pattern.Gather
import OrPattern.Proofs.Pattern.Typed
import OrPattern.Proofs.Pattern.Captures
import OrPattern.Proofs.Pattern.Bindings
import OrPattern.Proofs.Pattern.WellFormed
import OrPattern.Proofs.Pattern.Flatten
import OrPattern.Proofs.Shape.Agreement
import OrPattern.Proofs.Shape.Suits
import OrPattern.Proofs.Pattern.Stands
import OrPattern.Proofs.Shape.Certify
import OrPattern.Proofs.Shape.Symmetry
import OrPattern.Proofs.Compile.Rejects
import OrPattern.Proofs.Shape.Justified
import OrPattern.Proofs.Compile.Collects
import OrPattern.Proofs.Compile.Reconcile
import OrPattern.Proofs.Compile.ShapeFirst
import OrPattern.Proofs.Compile.Growth
import OrPattern.Proofs.Compile.Nested
import OrPattern.Proofs.Compile.Summary
import OrPattern.Proofs.Compile.Collected
import OrPattern.Proofs.Compile.Sites
import OrPattern.Proofs.Compile.Sound
import OrPattern.Proofs.Compile.Emitted
import OrPattern.Proofs.Compile.BindingPath
import OrPattern.Proofs.Compile.Emission
import OrPattern.Proofs.Compile.OneSiteEach
import OrPattern.Proofs.Compile.Complete
import OrPattern.Proofs.Compile.Accepted
import OrPattern.Proofs.Compile.Unknown
import OrPattern.Proofs.Compile.Principal
import OrPattern.Proofs.Compile.Flatten
import OrPattern.Proofs.Compile.Midway
import OrPattern.Proofs.Compile.Faultless
import OrPattern.Proofs.Compile.Retarget
import OrPattern.Proofs.Dispatch.Erase
import OrPattern.Proofs.Dispatch.Candidates
import OrPattern.Proofs.Dispatch.Faithful
import OrPattern.Proofs.Dispatch.Meaning
import OrPattern.Proofs.Compile.Slots
import OrPattern.Proofs.Compile.Again
import OrPattern.Proofs.Select.Retarget
import OrPattern.Proofs.Select.Binds
import OrPattern.Proofs.Select.Arranged
import OrPattern.Proofs.Select.Leftmost
import OrPattern.Proofs.Select.Correct
import OrPattern.Proofs.Select.Places
import OrPattern.Proofs.Select.Bodies
import OrPattern.Proofs.Select.Flattened
import OrPattern.Proofs.Compile.Renamed
import OrPattern.Proofs.Compile.Extends
import OrPattern.Proofs.Compile.Mirrors
import OrPattern.Proofs.Compile.Alike
import OrPattern.Proofs.Compile.Batch
import OrPattern.Proofs.Compile.Develops
import OrPattern.Proofs.Compile.Still
import OrPattern.Proofs.Compile.Conflict
import OrPattern.Proofs.Compile.Justified
import OrPattern.Proofs.Compile.Refused
import OrPattern.Proofs.Compile.Verdict
import OrPattern.Proofs.Compile.Permuted
import OrPattern.Proofs.Naming.Data
import OrPattern.Proofs.Naming.Pool
import OrPattern.Proofs.Naming.Shape
import OrPattern.Proofs.Naming.Select
import OrPattern.Proofs.Naming.Construction
import OrPattern.Proofs.Naming.Join
import OrPattern.Proofs.Naming.Reconcile
import OrPattern.Proofs.Naming.Emission
import OrPattern.Proofs.Naming.Collect
import OrPattern.Proofs.Naming.Numbering
