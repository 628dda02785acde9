import OrPattern.Proofs.Compile.Collects
import OrPattern.Proofs.Pattern.Nodes

namespace OrPattern

open Attempt

variable {options : Options} {pool later : Pool} {context : CollectContext} {expected : Ty}
  {path : Path} {findings : Findings} {certificate : Certificate} {alternatives : List Pattern}

/-- What tells the nested or-patterns of an evidence apart. -/
def NestedPattern.key (nested : NestedPattern) : Nat × Path := (nested.alternative, nested.path)

/-- The nested or-patterns found are those of one alternative at or below a path,
    each at a path of its own. -/
structure Findings.NestedUnder (alternative : Nat) (path : Path) (findings : Findings) : Prop where
  alternative_eq : ∀ nested ∈ findings.nested, nested.alternative = alternative
  below : ∀ nested ∈ findings.nested, path <+: nested.path
  unique : (findings.nested.map NestedPattern.key).Nodup

namespace Findings

variable {alternative : Nat} {first others : Findings}

theorem nestedUnder_of_nil (hnil : findings.nested = []) : findings.NestedUnder alternative path where
  alternative_eq := by simp [hnil]
  below := by simp [hnil]
  unique := by simp [hnil]

/-- Keys stay unique if the two sides have none in common. -/
theorem unique_append (hfirst : (first.nested.map NestedPattern.key).Nodup)
    (hothers : (others.nested.map NestedPattern.key).Nodup)
    (hdisjoint : ∀ a ∈ first.nested, ∀ b ∈ others.nested, a.key ≠ b.key) :
    ((first ++ others).nested.map NestedPattern.key).Nodup := by
  have hnested : (first ++ others).nested = first.nested ++ others.nested := rfl
  rw [hnested, List.map_append, List.nodup_append]
  refine ⟨hfirst, hothers, fun a ha b hb => ?_⟩
  obtain ⟨x, hx, rfl⟩ := List.mem_map.mp ha
  obtain ⟨y, hy, rfl⟩ := List.mem_map.mp hb
  exact hdisjoint x hx y hy

end Findings

/-- Two different steps lead to different places. -/
theorem ne_of_step_ne {step other : Step} {place otherPlace : Path} (hne : step ≠ other)
    (hplace : path ++ [step] <+: place) (hother : path ++ [other] <+: otherPlace) :
    place ≠ otherPlace := by
  rintro rfl
  obtain ⟨rest, rfl⟩ := hplace
  obtain ⟨otherRest, hsame⟩ := hother
  simp only [List.append_assoc, List.append_cancel_left_eq, List.cons_append,
    List.cons.injEq] at hsame
  exact hne hsame.1.symm

theorem CollectsParts.nestedUnder {typeOf : Step → Option Ty} {parts : List (Step × Pattern)}
    (hcollects : CollectsParts options context path typeOf pool parts findings later)
    (hsteps : (parts.map fun part => part.1.clip).Nodup)
    (hparts : ∀ part ∈ parts, ∀ type start found next,
      (part.2.collect options context type (path ++ [part.1.clip])).Yields start found next →
        found.NestedUnder context.alternative (path ++ [part.1.clip])) :
    findings.NestedUnder context.alternative path ∧
      ∀ nested ∈ findings.nested, ∃ part ∈ parts, path ++ [part.1.clip] <+: nested.path := by
  induction hcollects with
  | nil => exact ⟨Findings.nestedUnder_of_nil rfl, nofun⟩
  | @cons pool middle later step pattern parts type first others _ head _ ih =>
    obtain ⟨hstep, hsteps⟩ := List.nodup_cons.mp hsteps
    have hfirst := hparts (step, pattern) List.mem_cons_self _ _ _ _ head
    obtain ⟨hothers, hplaces⟩ := ih hsteps fun part hmem => hparts part (List.mem_cons_of_mem _ hmem)
    have hsplit : ∀ nested ∈ (first ++ others).nested,
        nested ∈ first.nested ∨ nested ∈ others.nested := fun _ => List.mem_append.mp
    refine ⟨⟨fun nested hmem => ?_, fun nested hmem => ?_, ?_⟩, fun nested hmem => ?_⟩
    · exact (hsplit nested hmem).elim (hfirst.alternative_eq nested) (hothers.alternative_eq nested)
    · refine (hsplit nested hmem).elim (fun h => ?_) (hothers.below nested)
      exact (List.prefix_append _ _).trans (hfirst.below nested h)
    · refine Findings.unique_append hfirst.unique hothers.unique fun a ha b hb hkey => ?_
      obtain ⟨part, hmem, hplace⟩ := hplaces b hb
      refine ne_of_step_ne (fun heq => hstep ?_) (hfirst.below a ha) hplace (Prod.mk.inj hkey).2
      exact List.mem_map.mpr ⟨part, hmem, heq.symm⟩
    · rcases hsplit nested hmem with hhead | htail
      · exact ⟨_, List.mem_cons_self, hfirst.below nested hhead⟩
      · obtain ⟨part, hpart, hplace⟩ := hplaces nested htail
        exact ⟨part, List.mem_cons_of_mem _ hpart, hplace⟩

/-- Each nested or-pattern of an alternative is found at a path of its own, if the
    parts of each node lie at different places. -/
theorem Pattern.collect_nestedUnder (pattern : Pattern) (context : CollectContext) (expected : Ty)
    (path : Path) (pool : Pool) (findings : Findings) (later : Pool)
    (hdistinct : ∀ node ∈ pattern.nodes, node.StepsDistinct)
    (hcollect : (pattern.collect options context expected path).Yields pool findings later) :
    findings.NestedUnder context.alternative path := by
  induction pattern using inductParts generalizing context expected path pool findings later with
  | wildcard span =>
    obtain ⟨rfl, -⟩ := collect_wildcard_yields_iff.mp hcollect
    exact Findings.nestedUnder_of_nil rfl
  | bind name ascription span =>
    obtain ⟨site, -, rfl, -⟩ := collect_bind_yields_iff.mp hcollect
    exact Findings.nestedUnder_of_nil rfl
  | literal value span =>
    obtain ⟨-, rfl, -⟩ := collect_literal_yields_iff.mp hcollect
    exact Findings.nestedUnder_of_nil rfl
  | branch pattern hbranch ih =>
    obtain ⟨-, hparts⟩ := (collect_branch_yields_iff hbranch).mp hcollect
    have hsteps := steps_nodup (hdistinct pattern pattern.self_mem_nodes)
    refine (hparts.nestedUnder hsteps fun part hmem type start found next hyields => ?_).1
    refine ih part hmem context type _ start found next (fun node hnode => ?_) hyields
    exact hdistinct node (mem_nodes_of_part hmem hnode)
  | or alternatives span ih =>
    obtain ⟨-, _, _, _, compiled, sites, -, -, rfl⟩ := collect_or_yields_iff.mp hcollect
    refine ⟨fun nested hmem => ?_, fun nested hmem => ?_, List.nodup_singleton _⟩
    · cases List.mem_singleton.mp hmem
      rfl
    · cases List.mem_singleton.mp hmem
      exact List.prefix_refl path

/-- Over all alternatives, path and alternative together tell the nested
    or-patterns apart. -/
theorem collectAlternatives_unique {index : Nat}
    (hdistinct : ∀ pattern ∈ alternatives, ∀ node ∈ pattern.nodes, node.StepsDistinct)
    (hcollects : (Pattern.collectAlternatives options alternatives certificate index expected
      path).Yields pool findings later) :
    (findings.nested.map NestedPattern.key).Nodup ∧
      ∀ nested ∈ findings.nested, index ≤ nested.alternative := by
  induction alternatives generalizing index pool findings with
  | nil =>
    obtain ⟨rfl, -⟩ := Pattern.collectAlternatives_nil_yields_iff.mp hcollects
    exact ⟨List.nodup_nil, nofun⟩
  | cons pattern rest ih =>
    obtain ⟨first, middle, hfirst, others, hothers, rfl⟩ :=
      Pattern.collectAlternatives_cons_yields_iff.mp hcollects
    have hunder := pattern.collect_nestedUnder _ _ _ _ _ _
      (hdistinct pattern List.mem_cons_self) hfirst
    obtain ⟨hunique, hlater⟩ := ih (fun other hmem =>
      hdistinct other (List.mem_cons_of_mem _ hmem)) hothers
    refine ⟨Findings.unique_append hunder.unique hunique fun a ha b hb hkey => ?_,
      fun nested hmem => ?_⟩
    · have halternative : a.alternative = index := hunder.alternative_eq a ha
      have hbound := hlater b hb
      have hsame := (Prod.mk.inj hkey).1
      omega
    · rcases List.mem_append.mp hmem with hhead | htail
      · exact Nat.le_of_eq (hunder.alternative_eq nested hhead).symm
      · exact Nat.le_of_succ_le (hlater nested htail)

theorem Evidence.nested?_of_mem {evidence : Evidence} {nested : NestedPattern}
    (hunique : (evidence.findings.nested.map NestedPattern.key).Nodup)
    (hmem : nested ∈ evidence.findings.nested) :
    evidence.nested? nested.alternative nested.path = some nested.compiled := by
  have hfilter : nested ∈ evidence.findings.nested.filter fun other =>
      other.alternative = nested.alternative && other.path = nested.path :=
    List.mem_filter.mpr ⟨hmem, by simp⟩
  obtain ⟨last, hlast⟩ := Option.isSome_iff_exists.mp
    (List.getLast?_isSome.mpr (List.ne_nil_of_mem hfilter))
  obtain ⟨hlastMem, hkey⟩ := List.mem_filter.mp (List.mem_of_getLast? hlast)
  have hsame : last = nested := by
    refine List.inj_on_of_nodup_map hunique hlastMem hmem ?_
    simpa [NestedPattern.key] using hkey
  rw [Evidence.nested?, hlast, hsame, Option.map_some]

end OrPattern
