import OrPattern.Proofs.Compile.Nested
import OrPattern.Proofs.Compile.Sites
import OrPattern.Proofs.Pattern.Gather

namespace OrPattern

open Attempt

variable {options : Options} {pool later : Pool} {expected : Ty} {path : Path} {pattern : Pattern}
  {emit : EmitContext} {parts : ArmParts} {alternatives : List Pattern} {span : Span}
  {certificate : Certificate} {findings : Findings} {middle : Pool} {compiled : Compiled}

/-- These are the parts of the arm for a pattern that was collected from, emitted
    with the sites and the nested or-patterns that were found then. -/
structure Emitted (options : Options) (emit : EmitContext) (expected : Ty) (path : Path) (pool : Pool)
    (pattern : Pattern) (parts : ArmParts) : Prop where
  sitesUnique : (emit.evidence.findings.sites.map BindingSite.key).Nodup
  nestedUnique : (emit.evidence.findings.nested.map NestedPattern.key).Nodup
  collected : ∃ certificate findings later,
    (pattern.collect options ⟨certificate, emit.alternative⟩ expected path).Yields pool findings
      later ∧ findings.nested ⊆ emit.evidence.findings.nested ∧
      findings.sites ⊆ emit.evidence.findings.sites
  emitted : pattern.armParts emit path = .ok parts

namespace Emitted

/-- The parts of a node are emitted each on its own. -/
theorem exists_parts (hemitted : Emitted options emit expected path pool pattern parts)
    (hbranch : pattern.isBranch) :
    ∃ inner, pattern.ownParts path ++ inner = parts ∧
      Gathers (fun step part => part.armParts emit (path ++ [step.clip])) {} pattern.parts inner ∧
      ∀ part ∈ pattern.parts, ∀ piece, part.2.armParts emit (path ++ [part.1.clip]) = .ok piece →
        ∃ type start, Emitted options emit type (path ++ [part.1.clip]) start part.2 piece := by
  obtain ⟨hsites, hunique, ⟨certificate, findings, later, hcollect, hnested, hfindings⟩, hparts⟩ :=
    hemitted
  obtain ⟨-, hcollects⟩ := (Pattern.collect_branch_yields_iff hbranch).mp hcollect
  obtain ⟨inner, hinner, rfl⟩ := (Pattern.armParts_branch_eq_ok_iff hbranch).mp hparts
  refine ⟨inner, rfl, hinner, fun part hmem piece hpiece => ?_⟩
  obtain ⟨type, start, found, next, -, hyields, hfound, hfoundSites⟩ := hcollects.exists_part hmem
  exact ⟨type, start, hsites, hunique, ⟨certificate, found, next, hyields,
    List.Subset.trans hfound hnested, List.Subset.trans hfoundSites hfindings⟩, hpiece⟩

/-- The parts of a node are emitted each over its own type, from a pool that has
    kept the types of the node. -/
theorem branch (hemitted : Emitted options emit expected path pool pattern parts)
    (hbranch : pattern.isBranch) (hpool : pool.WellFormed) :
    pattern.Fits pool expected ∧ ∃ inner, pattern.ownParts path ++ inner = parts ∧
      Gathers (fun step part => part.armParts emit (path ++ [step.clip])) {} pattern.parts inner ∧
      ∀ part ∈ pattern.parts, ∀ piece, part.2.armParts emit (path ++ [part.1.clip]) = .ok piece →
        ∃ type start, pattern.partType? pool expected part.1 = some type ∧ start.WellFormed ∧
          pool.KeptBy start ∧
            Emitted options emit type (path ++ [part.1.clip]) start part.2 piece := by
  obtain ⟨hsites, hunique, ⟨certificate, findings, later, hcollect, hnested, hfindings⟩, hparts⟩ :=
    hemitted
  obtain ⟨hfits, hcollects⟩ := (Pattern.collect_branch_yields_iff hbranch).mp hcollect
  obtain ⟨inner, hinner, rfl⟩ := (Pattern.armParts_branch_eq_ok_iff hbranch).mp hparts
  refine ⟨hfits, inner, rfl, hinner, fun part hmem piece hpiece => ?_⟩
  obtain ⟨type, start, found, next, htype, hstart, hkept, -, hyields, hfound, hfoundSites⟩ :=
    hcollects.exists_step hpool (fun step type htype => Pattern.partType?_known hpool htype) hmem
  exact ⟨type, start, htype, hstart, hkept, hsites, hunique, ⟨certificate, found, next, hyields,
    List.Subset.trans hfound hnested, List.Subset.trans hfoundSites hfindings⟩, hpiece⟩

/-- The arm of a binding is one slot. It reads at the type that the pattern states,
    or at that of its place, and shows the type that the environment has. -/
theorem slot {name : Name} {ascription : Option Ty}
    (hemitted : Emitted options emit expected path pool (.bind name ascription span) parts) :
    ∃ exposed, emit.environment.type? name = some exposed ∧
      ({ slots := [⟨name, path, ascription.getD expected, exposed,
        .between (ascription.getD expected) exposed⟩] } : ArmParts) = parts := by
  obtain ⟨hsites, -, ⟨certificate, findings, later, hcollect, -, hfindings⟩, hparts⟩ := hemitted
  obtain ⟨slot, hslot, hresult⟩ := Except.bind_eq_ok_iff.mp hparts
  cases hresult
  obtain ⟨site, exposed, hsite, hexposed, rfl⟩ := EmitContext.slot_eq_ok_iff.mp hslot
  obtain ⟨own, hown, rfl, -⟩ := Pattern.collect_bind_yields_iff.mp hcollect
  obtain ⟨-, rfl⟩ := CollectContext.site_eq_ok_iff.mp hown
  have hlookup := Evidence.site?_of_mem hsites (hfindings List.mem_cons_self)
  obtain rfl := Option.some.inj (hlookup.symm.trans hsite)
  exact ⟨exposed, hexposed, rfl⟩

/-- The arm of a nested or-pattern is one test, by the procedure that it was
    compiled to. -/
theorem choices (hemitted : Emitted options emit expected path pool (.or alternatives span) parts) :
    ∃ certificate findings middle compiled later,
      CompilesTo options alternatives expected path span pool certificate findings middle compiled
        later ∧
      ({ checks := [.firstOf path (compiled.procedure.retarget emit.environment)] } : ArmParts) =
        parts := by
  obtain ⟨-, hunique, ⟨certificate, findings, later, hcollect, hnested, -⟩, hparts⟩ := hemitted
  obtain ⟨check, hcheck, hresult⟩ := Except.bind_eq_ok_iff.mp hparts
  cases hresult
  obtain ⟨found, hfound, rfl⟩ := EmitContext.nestedCheck_eq_ok_iff.mp hcheck
  obtain ⟨-, inner, innerFindings, middle, compiled, sites, hcompiles, -, rfl⟩ :=
    Pattern.collect_or_yields_iff.mp hcollect
  have hlookup := Evidence.nested?_of_mem hunique (hnested List.mem_cons_self)
  obtain rfl : found = compiled := Option.some.inj (hfound.symm.trans hlookup)
  exact ⟨inner, innerFindings, middle, found, later, hcompiles, rfl⟩

end Emitted

/-- Each arm is that of one alternative. -/
theorem Evidence.exists_armParts_of_emitArms {evidence : Evidence} {environment : Environment}
    {index : Nat} {arms : List Arm}
    (harms : evidence.emitArms environment path alternatives index = .ok arms) {arm : Arm}
    (hmem : arm ∈ arms) :
    ∃ offset pattern parts, alternatives[offset]? = some pattern ∧
      pattern.armParts ⟨evidence, environment, index + offset⟩ path = .ok parts ∧
      arm = ⟨index + offset, parts.checks, parts.slots⟩ := by
  induction alternatives generalizing index arms with
  | nil =>
    cases harms
    cases hmem
  | cons pattern rest ih =>
    obtain ⟨parts, hparts, hrest⟩ := Except.bind_eq_ok_iff.mp harms
    obtain ⟨others, hothers, hresult⟩ := Except.bind_eq_ok_iff.mp hrest
    cases hresult
    rcases List.mem_cons.mp hmem with rfl | hmem
    · exact ⟨0, pattern, parts, rfl, hparts, rfl⟩
    · obtain ⟨offset, other, found, hother, hfound, rfl⟩ := ih hothers hmem
      rw [Nat.add_assoc, Nat.add_comm 1] at hfound
      exact ⟨offset + 1, other, found, hother, hfound, by rw [Nat.add_assoc, Nat.add_comm 1]⟩

/-- The arms of a compilation are emitted from the alternatives that it collected
    from. -/
theorem CompilesTo.exists_emitted
    (hdistinct : ∀ pattern ∈ alternatives, ∀ node ∈ pattern.nodes, node.StepsDistinct)
    (hcompiles : CompilesTo options alternatives expected path span pool certificate findings middle
      compiled later) {offset : Nat} (hpattern : alternatives[offset]? = some pattern)
    (hparts : pattern.armParts ⟨certificate.evidence alternatives.length findings,
      compiled.environment, offset⟩ path = .ok parts) :
    ∃ start, Emitted options ⟨certificate.evidence alternatives.length findings,
      compiled.environment, offset⟩ expected path start pattern parts := by
  obtain ⟨start, found, next, hyields, hfound⟩ :=
    Pattern.exists_alternative hcompiles.collected hpattern
  obtain ⟨-, hagree, -⟩ := Pattern.certify_sound hcompiles.certified
  rw [Nat.zero_add] at hyields
  exact ⟨start, (Pattern.keys_nodup_of_collectAlternatives hcompiles.collected hagree.unique).1,
    (collectAlternatives_unique hdistinct hcompiles.collected).1,
    ⟨certificate, found, next, hyields, hfound⟩, hparts⟩

/-- Over a known type the pools that the alternatives are collected from have kept
    the types of the first one. -/
theorem CompilesTo.emitted_arm (hpool : pool.WellFormed) (hexpected : pool.contains expected)
    (hdistinct : ∀ pattern ∈ alternatives, ∀ node ∈ pattern.nodes, node.StepsDistinct)
    (hcompiles : CompilesTo options alternatives expected path span pool certificate findings middle
      compiled later) {offset : Nat} (hpattern : alternatives[offset]? = some pattern)
    (hparts : pattern.armParts ⟨certificate.evidence alternatives.length findings,
      compiled.environment, offset⟩ path = .ok parts) :
    ∃ start, start.WellFormed ∧ pool.KeptBy start ∧
      Emitted options ⟨certificate.evidence alternatives.length findings, compiled.environment,
        offset⟩ expected path start pattern parts := by
  obtain ⟨start, found, next, hstart, hkept, -, hyields, hfound⟩ :=
    Pattern.exists_alternative_step hpool hexpected hcompiles.collected hpattern
  obtain ⟨-, hagree, -⟩ := Pattern.certify_sound hcompiles.certified
  rw [Nat.zero_add] at hyields
  exact ⟨start, hstart, hkept,
    (Pattern.keys_nodup_of_collectAlternatives hcompiles.collected hagree.unique).1,
    (collectAlternatives_unique hdistinct hcompiles.collected).1,
    ⟨certificate, found, next, hyields, hfound⟩, hparts⟩

end OrPattern
