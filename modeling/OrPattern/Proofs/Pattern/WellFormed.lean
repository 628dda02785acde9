import Mathlib.Data.List.Pairwise
import OrPattern.Proofs.Order.Growth
import OrPattern.Proofs.Pattern.Bindings
import OrPattern.Ty.Growth

namespace OrPattern

namespace Pattern

/-- Laid over a type, the pattern binds the name at a place of this type, with
    this ascription if any. -/
def BindsAt (pool : Pool) (expected : Ty) (pattern : Pattern) (name : Name)
    (ascription : Option Ty) (type : Ty) : Prop :=
  ∃ span, Reaches pool expected pattern type (bind name ascription span)

/-- The types of a name can be brought together. Every ascription admits the type
    at its own place. Either none of the places has an ascription and there is a
    type above those of all, now or once the pool has grown, or one ascription is
    above all the others and above the types of the places without one. -/
structure Reconciles (pool : Pool) (expected : Ty) (pattern : Pattern) (name : Name) : Prop where
  admitted : ∀ ascribed type, BindsAt pool expected pattern name (some ascribed) type →
    pool.isSubtype type ascribed
  settled :
    ((∀ ascription type, BindsAt pool expected pattern name ascription type → ascription = none) ∧
      ∃ later bound, Pool.Grows pool later ∧
        ∀ type, BindsAt pool expected pattern name none type → later.isSubtype type bound) ∨
    ∃ upper place, BindsAt pool expected pattern name (some upper) place ∧
      ∀ ascription type, BindsAt pool expected pattern name ascription type →
        pool.isSubtype (ascription.getD type) upper

/-- A pattern lies over a type: its or-patterns choose between two alternatives at
    least, which bind the same names at the same places, and no name is bound twice;
    every node fits the type at its place; and at every or-pattern the types of each
    name can be brought together. -/
structure LiesOver (pool : Pool) (expected : Ty) (pattern : Pattern) : Prop where
  plural : ∀ node ∈ pattern.nodes, node.isOr → 2 ≤ node.alternatives.length
  agree : ∀ node ∈ pattern.nodes, node.ChoicesAgree
  unique : pattern.names.Nodup
  fits : ∀ place node, Reaches pool expected pattern place node → node.Fits pool place
  choicesReconcile : ∀ place node, Reaches pool expected pattern place node → node.isOr →
    ∀ name, Reconciles pool place node name

/-- A pattern is well formed over a type if it lies over it and the types of each of
    its own names can be brought together. -/
structure WellFormed (pool : Pool) (expected : Ty) (pattern : Pattern) : Prop extends
    LiesOver pool expected pattern where
  reconciles : ∀ name, Reconciles pool expected pattern name

/-- The ascriptions of a pattern are types of the pool. -/
def AscriptionsKnown (pool : Pool) (pattern : Pattern) : Prop :=
  ∀ name ascribed span, bind name (some ascribed) span ∈ pattern.nodes → pool.contains ascribed

variable {pool later : Pool} {expected place type : Ty} {pattern node : Pattern} {name : Name}
  {ascription : Option Ty}

/-- What a pattern reaches is itself or is reached by a part or by an
    alternative. -/
theorem reaches_iff :
    Reaches pool expected pattern place node ↔ (place = expected ∧ node = pattern) ∨
      (∃ part ∈ pattern.parts, ∃ partType, pattern.partType? pool expected part.1 = some partType ∧
        Reaches pool partType part.2 place node) ∨
      ∃ choice ∈ pattern.choices, Reaches pool expected choice place node := by
  constructor
  · intro hreaches
    cases hreaches with
    | self => exact .inl ⟨rfl, rfl⟩
    | part mem typed rest => exact .inr (.inl ⟨_, mem, _, typed, rest⟩)
    | alternative mem rest => exact .inr (.inr ⟨_, mem, rest⟩)
  · rintro (⟨rfl, rfl⟩ | ⟨part, hmem, partType, htype, hrest⟩ | ⟨choice, hmem, hrest⟩)
    · exact .self _ _
    · exact .part hmem htype hrest
    · cases pattern with
      | or alternatives span => exact .alternative hmem hrest
      | wildcard | bind | literal | variant | tuple | record => exact absurd hmem List.not_mem_nil

theorem reaches_branch_iff (hbranch : pattern.isBranch) :
    Reaches pool expected pattern place node ↔ (place = expected ∧ node = pattern) ∨
      ∃ part ∈ pattern.parts, ∃ partType, pattern.partType? pool expected part.1 = some partType ∧
        Reaches pool partType part.2 place node := by
  rw [reaches_iff]
  simp only [choices_branch hbranch, List.not_mem_nil, false_and, exists_false, or_false]

theorem reaches_or_iff {alternatives : List Pattern} {span : Span} :
    Reaches pool expected (or alternatives span) place node ↔
      (place = expected ∧ node = or alternatives span) ∨
        ∃ choice ∈ alternatives, Reaches pool expected choice place node := by
  rw [reaches_iff]
  simp only [parts, choices, List.not_mem_nil, false_and, exists_false, false_or]

theorem Reaches.nodes_subset (hreaches : Reaches pool expected pattern place node) :
    node.nodes ⊆ pattern.nodes := by
  induction hreaches with
  | self => exact List.Subset.refl _
  | part mem _ _ ih => exact fun inner hinner => mem_nodes_of_part mem (ih hinner)
  | alternative mem _ ih => exact fun inner hinner => mem_nodes_of_choice mem (ih hinner)

theorem Reaches.mem_nodes (hreaches : Reaches pool expected pattern place node) :
    node ∈ pattern.nodes :=
  hreaches.nodes_subset node.self_mem_nodes

theorem AscriptionsKnown.of_subset (hascribed : pattern.AscriptionsKnown pool)
    (hsubset : node.nodes ⊆ pattern.nodes) : node.AscriptionsKnown pool :=
  fun name ascribed span hmem => hascribed name ascribed span (hsubset hmem)

theorem BindsAt.known (hpool : pool.WellFormed) (hknown : pool.contains expected)
    (hbinds : BindsAt pool expected pattern name ascription type) : pool.contains type := by
  obtain ⟨span, hreaches⟩ := hbinds
  exact hreaches.known hpool hknown

theorem AscriptionsKnown.of_bindsAt {ascribed : Ty} (hascribed : pattern.AscriptionsKnown pool)
    (hbinds : BindsAt later expected pattern name (some ascribed) type) : pool.contains ascribed := by
  obtain ⟨span, hreaches⟩ := hbinds
  exact hascribed name ascribed span hreaches.mem_nodes

theorem bindsAt_bind_iff {bound : Name} {stated : Option Ty} {span : Span} :
    BindsAt pool expected (bind bound stated span) name ascription type ↔
      bound = name ∧ stated = ascription ∧ expected = type := by
  constructor
  · rintro ⟨other, hreaches⟩
    rcases reaches_iff.mp hreaches with ⟨rfl, heq⟩ | ⟨part, hmem, -⟩ | ⟨choice, hmem, -⟩
    · cases heq
      exact ⟨rfl, rfl, rfl⟩
    · exact absurd hmem List.not_mem_nil
    · exact absurd hmem List.not_mem_nil
  · rintro ⟨rfl, rfl, rfl⟩
    exact ⟨span, .self _ _⟩

theorem bindsAt_branch_iff (hbranch : pattern.isBranch) :
    BindsAt pool expected pattern name ascription type ↔ ∃ part ∈ pattern.parts, ∃ partType,
      pattern.partType? pool expected part.1 = some partType ∧
        BindsAt pool partType part.2 name ascription type := by
  constructor
  · rintro ⟨span, hreaches⟩
    rcases (reaches_branch_iff hbranch).mp hreaches with ⟨-, rfl⟩ | ⟨part, hmem, partType, htype, hrest⟩
    · cases hbranch
    · exact ⟨part, hmem, partType, htype, span, hrest⟩
  · rintro ⟨part, hmem, partType, htype, span, hrest⟩
    exact ⟨span, .part hmem htype hrest⟩

theorem bindsAt_or_iff {alternatives : List Pattern} {span : Span} :
    BindsAt pool expected (or alternatives span) name ascription type ↔
      ∃ pattern ∈ alternatives, BindsAt pool expected pattern name ascription type := by
  constructor
  · rintro ⟨place, hreaches⟩
    rcases reaches_or_iff.mp hreaches with ⟨-, heq⟩ | ⟨choice, hmem, hrest⟩
    · cases heq
    · exact ⟨choice, hmem, place, hrest⟩
  · rintro ⟨pattern, hmem, place, hrest⟩
    exact ⟨place, .alternative hmem hrest⟩

theorem bindsAt_alternatives_iff :
    BindsAt pool expected pattern name ascription type ↔
      ∃ choice ∈ pattern.alternatives, BindsAt pool expected choice name ascription type := by
  cases pattern with
  | or alternatives span => exact bindsAt_or_iff
  | wildcard | bind | literal | variant | tuple | record => simp [alternatives]

/-- The alternatives that a pattern is compiled as bind what the pattern binds. -/
theorem bindsAt_or_alternatives (span : Span) :
    BindsAt pool expected (or pattern.alternatives span) name = BindsAt pool expected pattern name :=
  funext fun _ => funext fun _ => propext (bindsAt_or_iff.trans bindsAt_alternatives_iff.symm)

theorem Reconciles.of_places {other : Pattern}
    (hplaces : BindsAt pool expected pattern name = BindsAt pool expected other name)
    (hreconciles : Reconciles pool expected other name) : Reconciles pool expected pattern name := by
  obtain ⟨hadmitted, hsettled⟩ := hreconciles
  refine ⟨?_, ?_⟩
  · rwa [hplaces]
  · rwa [hplaces]

theorem alternatives_ne_nil (hplural : pattern.isOr → 2 ≤ pattern.alternatives.length) :
    pattern.alternatives ≠ [] := by
  cases pattern with
  | or alternatives span =>
    have hmany := hplural rfl
    exact List.ne_nil_of_length_pos (by omega)
  | wildcard | bind | literal | variant | tuple | record => exact List.cons_ne_nil _ _

/-- A pattern whose or-patterns agree lists every name that it binds anywhere. -/
theorem mem_names_of_bindsAt (hagree : ∀ node ∈ pattern.nodes, node.ChoicesAgree)
    (hbinds : BindsAt pool expected pattern name ascription type) : name ∈ pattern.names := by
  obtain ⟨span, hreaches⟩ := hbinds
  exact mem_names_of_mem_nodes hagree hreaches.mem_nodes

/-- In a node that binds no name twice a name belongs to one part. -/
theorem part_eq_of_mem_names (hbranch : pattern.isBranch) (hnodup : pattern.names.Nodup)
    {part other : Step × Pattern} (hpart : part ∈ pattern.parts) (hother : other ∈ pattern.parts)
    (hname : name ∈ part.2.names) (hotherName : name ∈ other.2.names) : part = other := by
  rw [names, bindings_branch hbranch, names_parts] at hnodup
  have hapart : pattern.parts.Pairwise fun a b => ¬(name ∈ a.2.names ∧ name ∈ b.2.names) :=
    (List.nodup_flatMap.mp hnodup).2.imp fun hdisjoint hboth => hdisjoint hboth.1 hboth.2
  have hsymm : Std.Symm fun a b : Step × Pattern => ¬(name ∈ a.2.names ∧ name ∈ b.2.names) :=
    ⟨fun _ _ h hboth => h hboth.symm⟩
  by_contra hne
  exact hapart.forall hpart hother hne ⟨hname, hotherName⟩

namespace LiesOver

theorem part {step : Step × Pattern} (hlies : LiesOver pool expected pattern)
    (hbranch : pattern.isBranch) (hmem : step ∈ pattern.parts)
    (htype : pattern.partType? pool expected step.1 = some type) : LiesOver pool type step.2 where
  plural node hnode := hlies.plural node (mem_nodes_of_part hmem hnode)
  agree node hnode := hlies.agree node (mem_nodes_of_part hmem hnode)
  unique := names_nodup_of_part hbranch hlies.unique hmem
  fits place node hreaches := hlies.fits place node (.part hmem htype hreaches)
  choicesReconcile place node hreaches :=
    hlies.choicesReconcile place node (.part hmem htype hreaches)

theorem choice {alternatives : List Pattern} {span : Span} {choice : Pattern}
    (hlies : LiesOver pool expected (or alternatives span)) (hmem : choice ∈ alternatives) :
    LiesOver pool expected choice where
  plural node hnode := hlies.plural node (mem_nodes_of_choice hmem hnode)
  agree node hnode := hlies.agree node (mem_nodes_of_choice hmem hnode)
  unique := (hlies.agree _ (self_mem_nodes _)).unique choice hmem
  fits place node hreaches := hlies.fits place node (.alternative hmem hreaches)
  choicesReconcile place node hreaches :=
    hlies.choicesReconcile place node (.alternative hmem hreaches)

/-- What a pattern is compiled as agrees and lies over the type of the pattern. -/
theorem agree_alternatives (hlies : LiesOver pool expected pattern) : Agree pattern.alternatives := by
  cases pattern with
  | or alternatives span => exact hlies.agree _ (self_mem_nodes _)
  | wildcard | bind | literal | variant | tuple | record => exact agree_singleton_iff.mpr hlies.unique

theorem alternative {choice : Pattern} (hlies : LiesOver pool expected pattern)
    (hmem : choice ∈ pattern.alternatives) : LiesOver pool expected choice := by
  cases pattern with
  | or alternatives span => exact hlies.choice hmem
  | wildcard | bind | literal | variant | tuple | record => exact List.mem_singleton.mp hmem ▸ hlies

end LiesOver

end Pattern

end OrPattern
