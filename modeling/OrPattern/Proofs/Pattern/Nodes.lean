import Mathlib.Data.List.Nodup
import OrPattern.Proofs.Pattern.Parts

namespace OrPattern

namespace Pattern

mutual

/-- Every node of a pattern, the pattern itself first. -/
def nodes : Pattern → List Pattern
  | wildcard span => [wildcard span]
  | bind name ascription span => [bind name ascription span]
  | literal value span => [literal value span]
  | variant tag inner span => variant tag inner span :: inner.nodes
  | tuple elements span => tuple elements span :: nodesList elements
  | record fields rest span => record fields rest span :: nodesFields fields
  | or alternatives span => or alternatives span :: nodesList alternatives

def nodesList : List Pattern → List Pattern
  | [] => []
  | pattern :: rest => pattern.nodes ++ nodesList rest

def nodesFields : List (FieldOf Pattern) → List Pattern
  | [] => []
  | ⟨_, pattern, _⟩ :: rest => pattern.nodes ++ nodesFields rest

end

/-- Between what an or-pattern chooses; nothing for other patterns. -/
def choices : Pattern → List Pattern
  | or alternatives _ => alternatives
  | _ => []

variable {pattern node : Pattern}

theorem choices_branch (hbranch : pattern.isBranch) : pattern.choices = [] := by
  cases pattern with
  | variant | tuple | record => rfl
  | wildcard | bind | literal | or => cases hbranch

theorem nodesList_eq (patterns : List Pattern) : nodesList patterns = patterns.flatMap nodes := by
  induction patterns with
  | nil => rfl
  | cons first rest ih => rw [nodesList, ih, List.flatMap_cons]

theorem nodesFields_eq (fields : List (FieldOf Pattern)) :
    nodesFields fields = fields.flatMap fun field => field.pattern.nodes := by
  induction fields with
  | nil => rfl
  | cons first rest ih => rw [nodesFields, ih, List.flatMap_cons]

/-- The nodes of a variant, tuple or record are itself and then those of its parts,
    one part after the other. -/
theorem nodes_branch (hbranch : pattern.isBranch) :
    pattern.nodes = pattern :: pattern.parts.flatMap fun part => part.2.nodes := by
  cases pattern with
  | variant tag inner span => simp only [nodes, parts, List.flatMap_singleton]
  | tuple elements span =>
    have helements : elements.zipIdx.flatMap (fun entry => entry.1.nodes) =
        elements.flatMap nodes := by
      rw [← List.flatMap_map, List.zipIdx_map_fst]
    simp only [nodes, nodesList_eq, parts, List.flatMap_map, helements]
  | record fields rest span => simp only [nodes, nodesFields_eq, parts, List.flatMap_map]
  | wildcard | bind | literal | or => cases hbranch

theorem nodes_or (alternatives : List Pattern) (span : Span) :
    (or alternatives span).nodes = or alternatives span :: alternatives.flatMap nodes := by
  rw [nodes, nodesList_eq]

/-- The nodes of a pattern are the pattern and the nodes of its parts and
    alternatives. -/
theorem mem_nodes_iff :
    node ∈ pattern.nodes ↔ node = pattern ∨ (∃ part ∈ pattern.parts, node ∈ part.2.nodes) ∨
      ∃ choice ∈ pattern.choices, node ∈ choice.nodes := by
  cases pattern with
  | wildcard | bind | literal => simp [nodes, parts, choices]
  | variant | tuple | record =>
    rw [nodes_branch rfl]
    simp [choices]
  | or alternatives span => simp [nodes_or, parts, choices]

theorem mem_nodes_branch_iff (hbranch : pattern.isBranch) :
    node ∈ pattern.nodes ↔ node = pattern ∨ ∃ part ∈ pattern.parts, node ∈ part.2.nodes := by
  rw [mem_nodes_iff]
  simp only [choices_branch hbranch, List.not_mem_nil, false_and, exists_false, or_false]

theorem mem_nodes_or_iff {alternatives : List Pattern} {span : Span} :
    node ∈ (or alternatives span).nodes ↔
      node = or alternatives span ∨ ∃ choice ∈ alternatives, node ∈ choice.nodes := by
  simp only [nodes_or, List.mem_cons, List.mem_flatMap]

theorem self_mem_nodes (pattern : Pattern) : pattern ∈ pattern.nodes :=
  mem_nodes_iff.mpr (.inl rfl)

theorem mem_nodes_of_part {part : Step × Pattern} (hpart : part ∈ pattern.parts)
    (hnode : node ∈ part.2.nodes) : node ∈ pattern.nodes :=
  mem_nodes_iff.mpr (.inr (.inl ⟨part, hpart, hnode⟩))

theorem mem_nodes_of_choice {choice : Pattern} (hchoice : choice ∈ pattern.choices)
    (hnode : node ∈ choice.nodes) : node ∈ pattern.nodes :=
  mem_nodes_iff.mpr (.inr (.inr ⟨choice, hchoice, hnode⟩))

theorem mem_nodes_of_alternative {choice : Pattern} (hchoice : choice ∈ pattern.alternatives)
    (hnode : node ∈ choice.nodes) : node ∈ pattern.nodes := by
  cases pattern with
  | or alternatives span => exact mem_nodes_of_choice hchoice hnode
  | wildcard | bind | literal | variant | tuple | record => exact List.mem_singleton.mp hchoice ▸ hnode

section Forall

variable {Holds : Pattern → Prop} (hnodes : ∀ node ∈ pattern.nodes, Holds node)
include hnodes

/-- What is true of the nodes of a pattern is true of the nodes of its parts. -/
theorem forall_nodes_of_part {part : Step × Pattern} (hpart : part ∈ pattern.parts) :
    ∀ node ∈ part.2.nodes, Holds node :=
  fun node hnode => hnodes node (mem_nodes_of_part hpart hnode)

theorem forall_nodes_of_choice {choice : Pattern} (hchoice : choice ∈ pattern.choices) :
    ∀ node ∈ choice.nodes, Holds node :=
  fun node hnode => hnodes node (mem_nodes_of_choice hchoice hnode)

theorem forall_nodes_of_alternative {choice : Pattern} (hchoice : choice ∈ pattern.alternatives) :
    ∀ node ∈ choice.nodes, Holds node :=
  fun node hnode => hnodes node (mem_nodes_of_alternative hchoice hnode)

end Forall

/-- A node is the or-pattern itself or lies in an alternative. -/
theorem eq_or_mem_nodes_of_alternative (hnode : node ∈ pattern.nodes) :
    node = pattern ∧ pattern.isOr ∨ ∃ choice ∈ pattern.alternatives, node ∈ choice.nodes := by
  cases pattern with
  | or alternatives span =>
    rcases mem_nodes_or_iff.mp hnode with rfl | hchoice
    · exact .inl ⟨rfl, rfl⟩
    · exact .inr hchoice
  | wildcard | bind | literal | variant | tuple | record =>
    exact .inr ⟨_, List.mem_singleton_self _, hnode⟩

/-- The parts of a node lie at different places: a record pattern mentions no field
    twice, and a tuple pattern has no more elements than paths have indices. -/
def StepsDistinct : Pattern → Prop
  | tuple elements _ => elements.length ≤ maxIndex + 1
  | record fields _ _ => (fields.map FieldOf.name).Nodup
  | _ => True

theorem stepsDistinct_or_iff {alternatives : List Pattern} {span : Span} :
    (∀ node ∈ (or alternatives span).nodes, node.StepsDistinct) ↔
      ∀ pattern ∈ alternatives, ∀ node ∈ pattern.nodes, node.StepsDistinct := by
  constructor
  · exact fun hdistinct pattern hmem node hnode => hdistinct node (mem_nodes_of_choice hmem hnode)
  · intro hdistinct node hnode
    rcases mem_nodes_or_iff.mp hnode with rfl | ⟨pattern, hmem, hnode⟩
    · exact trivial
    · exact hdistinct pattern hmem node hnode

/-- Paths hold the steps to the parts of such a node as they are. -/
theorem clip_eq_of_mem_parts (hdistinct : pattern.StepsDistinct) {part : Step × Pattern}
    (hmem : part ∈ pattern.parts) : part.1.clip = part.1 := by
  cases pattern with
  | variant tag inner span =>
    cases List.mem_singleton.mp hmem
    rfl
  | tuple elements span =>
    obtain ⟨index, hstep, helement⟩ := mem_parts_tuple.mp hmem
    have hlt : index < elements.length := (List.getElem?_eq_some_iff.mp helement).choose
    rw [hstep, Step.clip, clipIndex_of_le (Nat.le_of_lt_succ (Nat.lt_of_lt_of_le hlt hdistinct))]
  | record fields rest span =>
    obtain ⟨field, -, rfl⟩ := List.mem_map.mp hmem
    rfl
  | wildcard | bind | literal | or => exact absurd hmem List.not_mem_nil

theorem steps_nodup (hdistinct : pattern.StepsDistinct) :
    (pattern.parts.map fun part => part.1.clip).Nodup := by
  rw [List.map_congr_left fun part hmem => clip_eq_of_mem_parts hdistinct hmem]
  cases pattern with
  | tuple elements span =>
    have hsteps : (tuple elements span).parts.map Prod.fst =
        (List.range' 0 elements.length).map Step.element := by
      rw [← List.zipIdx_map_snd 0 elements, List.map_map, parts, List.map_map]
      rfl
    rw [hsteps]
    exact List.Nodup.map (fun _ _ => Step.element.inj) List.nodup_range'
  | record fields rest span =>
    have hsteps : (record fields rest span).parts.map Prod.fst =
        (fields.map FieldOf.name).map Step.field := by
      simp [parts, Function.comp_def]
    rw [hsteps]
    exact List.Nodup.map (fun _ _ => Step.field.inj) hdistinct
  | variant => exact List.nodup_singleton _
  | wildcard | bind | literal | or => exact List.nodup_nil

end Pattern

end OrPattern
