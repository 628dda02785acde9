import OrPattern.Proofs.Compile.Batch
import OrPattern.Proofs.Naming.Collect
import OrPattern.Proofs.Naming.Construction
import OrPattern.Proofs.Naming.Select

namespace OrPattern

open HasNames (withNames)
open Attempt Pool

variable {names : Name → Name} {pool : Pool} {pattern : Pattern}

namespace Pattern

mutual

theorem nodes_withNames (names : Name → Name) :
    ∀ pattern : Pattern, (withNames names pattern).nodes = withNames names pattern.nodes
  | .wildcard _ | .bind .. | .literal .. => rfl
  | .variant _ inner _ => congrArg (_ :: ·) (nodes_withNames names inner)
  | .tuple elements _ => congrArg (_ :: ·) (nodesList_allWithNames names elements)
  | .record fields _ _ => congrArg (_ :: ·) (nodesFields_fieldsWithNames names fields)
  | .or alternatives _ => congrArg (_ :: ·) (nodesList_allWithNames names alternatives)

theorem nodesList_allWithNames (names : Name → Name) :
    ∀ patterns : List Pattern,
      nodesList (allWithNames names patterns) = withNames names (nodesList patterns)
  | [] => rfl
  | pattern :: rest => by
    have hpattern := nodes_withNames names pattern
    have hrest := nodesList_allWithNames names rest
    simp only [allWithNames, nodesList]
    rw [withNames_append, ← hpattern, hrest]
    rfl

theorem nodesFields_fieldsWithNames (names : Name → Name) :
    ∀ fields : List (FieldOf Pattern),
      nodesFields (fieldsWithNames names fields) = withNames names (nodesFields fields)
  | [] => rfl
  | ⟨name, pattern, span⟩ :: rest => by
    have hpattern := nodes_withNames names pattern
    have hrest := nodesFields_fieldsWithNames names rest
    simp only [fieldsWithNames, nodesFields]
    rw [withNames_append, ← hpattern, hrest]
    rfl

end

/-- Ascriptions have no names in them. -/
protected theorem AscriptionsKnown.withNames (names : Name → Name)
    (hascribed : pattern.AscriptionsKnown pool) :
    (withNames names pattern).AscriptionsKnown (withNames names pool) := by
  intro name ascribed span hnode
  rw [nodes_withNames] at hnode
  obtain ⟨node, hmem, hnode⟩ := List.mem_map.mp hnode
  rw [contains_withNames]
  cases node with
  | bind old ascription span =>
    obtain ⟨-, rfl, rfl⟩ := Pattern.bind.inj hnode
    exact hascribed old ascribed span hmem
  | _ => cases hnode

end Pattern

end OrPattern
