import OrPattern.Literal
import OrPattern.Span
import OrPattern.Ty

namespace OrPattern

/-- A part of a pattern under a field name, with the place where it is written. -/
structure FieldOf (α : Type) where
  name : Name
  pattern : α
  span : Span
deriving DecidableEq, Repr

/-- A pattern as it was parsed; every node knows the source it was read from. -/
inductive Pattern where
  /-- Accepts any value and binds nothing. -/
  | wildcard (span : Span)
  /-- Accepts any value and binds it, perhaps at an ascribed type. -/
  | bind (name : Name) (ascription : Option Ty) (span : Span)
  | variant (tag : Name) (inner : Pattern) (span : Span)
  | tuple (elements : List Pattern) (span : Span)
  /-- With `rest`, the fields that are not mentioned are left open. -/
  | record (fields : List (FieldOf Pattern)) (rest : Bool) (span : Span)
  | literal (value : Literal) (span : Span)
  /-- Accepts what some alternative accepts, the leftmost first. -/
  | or (alternatives : List Pattern) (span : Span)
deriving Repr

namespace Pattern

def span : Pattern → Span
  | wildcard span | bind _ _ span | variant _ _ span | tuple _ span | record _ _ span
  | literal _ span | or _ span => span

/-- The tag alone: its payload is matched as the empty tuple. -/
def unitVariant (tag : Name) (span : Span) : Pattern := variant tag (tuple [] Span.none) span

def isOr : Pattern → Bool
  | or .. => true
  | _ => false

mutual

/-- The number of nodes of a pattern, itself included. -/
def nodeCount : Pattern → Nat
  | wildcard _ | bind .. | literal .. => 1
  | variant _ inner _ => 1 + inner.nodeCount
  | tuple elements _ => 1 + nodeCountList elements
  | record fields _ _ => 1 + nodeCountFields fields
  | or alternatives _ => 1 + nodeCountList alternatives

def nodeCountList : List Pattern → Nat
  | [] => 0
  | pattern :: rest => pattern.nodeCount + nodeCountList rest

def nodeCountFields : List (FieldOf Pattern) → Nat
  | [] => 0
  | ⟨_, pattern, _⟩ :: rest => pattern.nodeCount + nodeCountFields rest

end

end Pattern

end OrPattern
