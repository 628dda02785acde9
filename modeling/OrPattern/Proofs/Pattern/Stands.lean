import OrPattern.Proofs.Pattern.Bindings
import OrPattern.Proofs.Shape.Suits

namespace OrPattern

/-- The step of a path that goes with a step of a position. -/
def PositionStep.step : PositionStep → Step
  | .payload _ => .payload
  | .element index => .element index
  | .field name => .field name

/-- The path to a position; it does not tell tags. -/
def Position.path (position : Position) : Path := position.map PositionStep.step

@[simp] theorem Position.path_nil : Position.path [] = [] := rfl

@[simp] theorem Position.path_append (position rest : Position) :
    Position.path (position ++ rest) = position.path ++ Position.path rest := List.map_append

theorem Pool.typeAt?_append (pool : Pool) (type : Ty) (position rest : Position) :
    pool.typeAt? type (position ++ rest) =
      (pool.typeAt? type position).bind fun place => pool.typeAt? place rest := by
  induction position generalizing type with
  | nil => rfl
  | cons step position ih =>
    simp only [List.cons_append, Pool.typeAt?, Option.bind_assoc, ih]

namespace Pattern

/-- The pattern has this node at this position, with no or-pattern in between. -/
inductive Stands : Pattern → Position → Pattern → Prop where
  | self (pattern : Pattern) : Stands pattern [] pattern
  | part {pattern part node : Pattern} {step : Step} {position : Position}
      (mem : (step, part) ∈ pattern.parts) (rest : Stands part position node) :
      Stands pattern (pattern.positionStep step.clip :: position) node

/-- The patterns that are compiled on their own in the course of a compilation, each
    with its position: the whole, and every or-pattern within. -/
inductive UnitAt (pattern : Pattern) : Position → Pattern → Prop where
  | whole : UnitAt pattern [] pattern
  | nested {position rest : Position} {unit choice : Pattern} {alternatives : List Pattern}
      {span : Span} (outer : UnitAt pattern position unit) (mem : choice ∈ unit.alternatives)
      (stands : Stands choice rest (or alternatives span)) :
      UnitAt pattern (position ++ rest) (or alternatives span)

variable {pattern node unit inner choice : Pattern} {position rest : Position} {pool : Pool}
  {type place : Ty}

theorem positionStep_step {part : Step × Pattern} (hmem : part ∈ pattern.parts) :
    (pattern.positionStep part.1.clip).step = part.1.clip := by
  cases pattern with
  | variant tag inner span =>
    cases List.mem_singleton.mp hmem
    rfl
  | tuple elements span =>
    obtain ⟨index, hstep, -⟩ := mem_parts_tuple.mp hmem
    rw [hstep]
    rfl
  | record fields rest span =>
    obtain ⟨field, -, rfl⟩ := List.mem_map.mp hmem
    rfl
  | wildcard | bind | literal | or => exact absurd hmem List.not_mem_nil

namespace Stands

/-- The position of a node of a part, and the path to it. -/
theorem path_cons {part : Step × Pattern} (hmem : part ∈ pattern.parts) (position : Position) :
    Position.path (pattern.positionStep part.1.clip :: position) =
      [part.1.clip] ++ position.path := by
  rw [Position.path, List.map_cons, positionStep_step hmem]
  rfl

end Stands

theorem alternatives_nodes_subset (hmem : choice ∈ pattern.alternatives) :
    choice.nodes ⊆ pattern.nodes :=
  fun _ hnode => mem_nodes_of_alternative hmem hnode

namespace UnitAt

/-- What is compiled on its own within such a pattern is so within the whole. -/
theorem trans (houter : pattern.UnitAt position unit) (hinner : unit.UnitAt rest inner) :
    pattern.UnitAt (position ++ rest) inner := by
  induction hinner with
  | whole => rwa [List.append_nil]
  | nested _ mem stands ih =>
    rw [← List.append_assoc]
    exact .nested ih mem stands

end UnitAt

end Pattern

end OrPattern
