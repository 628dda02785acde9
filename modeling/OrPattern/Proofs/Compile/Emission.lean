import OrPattern.Proofs.Compile.BindingPath
import OrPattern.Proofs.Compile.Collected

namespace OrPattern

open Attempt

variable {options : Options} {base pool later : Pool} {context : CollectContext} {expected : Ty}
  {path : Path} {alternatives : List Pattern} {span : Span} {certificate : Certificate}
  {findings : Findings} {middle : Pool} {environment : Environment}

theorem Evidence.site?_isSome_of_mem {evidence : Evidence} {site : BindingSite}
    (hmem : site ∈ evidence.findings.sites) :
    (evidence.site? site.name site.alternative).isSome := by
  rw [Evidence.site?, List.find?_isSome]
  exact ⟨site, List.mem_filter.mpr ⟨hmem, decide_eq_true rfl⟩, decide_eq_true rfl⟩

theorem Evidence.nested?_isSome_of_mem {evidence : Evidence} {nested : NestedPattern}
    (hmem : nested ∈ evidence.findings.nested) :
    (evidence.nested? nested.alternative nested.path).isSome := by
  rw [Evidence.nested?, Option.isSome_map, List.getLast?_isSome]
  exact List.ne_nil_of_mem (List.mem_filter.mpr ⟨hmem, by simp⟩)

theorem Environment.type?_isSome_iff {name : Name} :
    (environment.type? name).isSome ↔ name ∈ environment.names := by
  rw [Environment.type?, Option.isSome_map, Environment.entry?, List.find?_isSome,
    Environment.names, List.mem_map]
  simp

namespace Pattern

/-- The arm of a pattern that was collected from can be emitted, if the evidence
    has all its findings and the environment all its names. -/
theorem exists_armParts (pattern : Pattern) (emit : EmitContext) (expected : Ty) (path : Path)
    (pool : Pool) (findings : Findings) (later : Pool)
    (hcollect : (pattern.collect options ⟨certificate, emit.alternative⟩ expected path).Yields pool
      findings later)
    (hsites : findings.sites ⊆ emit.evidence.findings.sites)
    (hnested : findings.nested ⊆ emit.evidence.findings.nested)
    (hnames : ∀ name ∈ pattern.names, name ∈ emit.environment.names) :
    ∃ parts, pattern.armParts emit path = .ok parts := by
  induction pattern using inductParts generalizing expected path pool findings later with
  | wildcard span => exact ⟨{}, rfl⟩
  | literal value span => exact ⟨_, rfl⟩
  | bind name ascription span =>
    obtain ⟨site, hsite, rfl, -⟩ := collect_bind_yields_iff.mp hcollect
    obtain ⟨-, rfl⟩ := CollectContext.site_eq_ok_iff.mp hsite
    obtain ⟨found, hfound⟩ := Option.isSome_iff_exists.mp
      (Evidence.site?_isSome_of_mem (hsites List.mem_cons_self))
    obtain ⟨exposed, hexposed⟩ := Option.isSome_iff_exists.mp
      (Environment.type?_isSome_iff.mpr (hnames name List.mem_cons_self))
    obtain ⟨slot, hslot⟩ : ∃ slot, emit.slot name path span = .ok slot :=
      ⟨_, EmitContext.slot_eq_ok_iff.mpr ⟨found, exposed, hfound, hexposed, rfl⟩⟩
    exact ⟨_, Except.bind_eq_ok_iff.mpr ⟨slot, hslot, rfl⟩⟩
  | branch pattern hbranch ih =>
    obtain ⟨-, hcollects⟩ := (collect_branch_yields_iff hbranch).mp hcollect
    obtain ⟨inner, hinner⟩ : ∃ inner, Gathers (fun step part =>
        part.armParts emit (path ++ [step.clip])) {} pattern.parts inner := by
      refine exists_gathers fun part hmem => ?_
      obtain ⟨type, start, found, next, -, hyields, hfoundNested, hfoundSites⟩ :=
        hcollects.exists_part hmem
      refine ih part hmem type _ start found next hyields (List.Subset.trans hfoundSites hsites)
        (List.Subset.trans hfoundNested hnested) fun name hname => hnames name ?_
      rw [names, bindings_branch hbranch, names_parts]
      exact List.mem_flatMap.mpr ⟨part, hmem, hname⟩
    exact ⟨_, (armParts_branch_eq_ok_iff hbranch).mpr ⟨inner, hinner, rfl⟩⟩
  | or alternatives span ih =>
    obtain ⟨-, _, _, _, compiled, sites, -, -, rfl⟩ := collect_or_yields_iff.mp hcollect
    obtain ⟨found, hfound⟩ := Option.isSome_iff_exists.mp
      (Evidence.nested?_isSome_of_mem (hnested List.mem_cons_self))
    obtain ⟨check, hcheck⟩ : ∃ check, emit.nestedCheck path span = .ok check :=
      ⟨_, EmitContext.nestedCheck_eq_ok_iff.mpr ⟨found, hfound, rfl⟩⟩
    exact ⟨_, Except.bind_eq_ok_iff.mpr ⟨check, hcheck, rfl⟩⟩

end Pattern

namespace Evidence

variable {evidence : Evidence} {index : Nat}

theorem exists_emitArms
    (hpatterns : ∀ (offset : Nat) pattern, alternatives[offset]? = some pattern →
      ∃ parts, pattern.armParts ⟨evidence, environment, index + offset⟩ path = .ok parts) :
    ∃ arms, evidence.emitArms environment path alternatives index = .ok arms := by
  induction alternatives generalizing index with
  | nil => exact ⟨[], rfl⟩
  | cons pattern rest ih =>
    obtain ⟨parts, hparts⟩ := hpatterns 0 pattern rfl
    have hrest : ∀ (offset : Nat) other, rest[offset]? = some other →
        ∃ parts, other.armParts ⟨evidence, environment, index + 1 + offset⟩ path = .ok parts := by
      intro offset other hother
      rw [Nat.add_assoc, Nat.add_comm 1]
      exact hpatterns (offset + 1) other hother
    obtain ⟨others, hothers⟩ := ih hrest
    exact ⟨_, Except.bind_eq_ok_iff.mpr ⟨parts, hparts,
      Except.bind_eq_ok_iff.mpr ⟨others, hothers, rfl⟩⟩⟩

/-- The procedure for alternatives that were collected from can be emitted, once
    their names have types. -/
theorem exists_emit
    (hcollects : (Pattern.collectAlternatives options alternatives certificate 0 expected
      path).Yields pool findings later)
    (hnames : ∀ pattern ∈ alternatives, ∀ name ∈ pattern.names, name ∈ environment.names) :
    ∃ procedure, (certificate.evidence alternatives.length findings).emit options environment path
      alternatives = .ok procedure := by
  obtain ⟨arms, harms⟩ : ∃ arms, (certificate.evidence alternatives.length findings).emitArms
      environment path alternatives 0 = .ok arms := by
    refine exists_emitArms fun offset pattern hpattern => ?_
    obtain ⟨start, found, next, hyields, hnested, hsites⟩ :=
      Pattern.exists_alternative hcollects hpattern
    exact pattern.exists_armParts _ expected path start found next hyields hsites hnested
      (hnames pattern (List.mem_of_getElem? hpattern))
  exact ⟨_, Except.bind_eq_ok_iff.mpr ⟨arms, harms, rfl⟩⟩

end Evidence

theorem exists_forall₂ {α β : Type} {R : α → β → Prop} {xs : List α}
    (hall : ∀ x ∈ xs, ∃ y, R x y) : ∃ ys, List.Forall₂ R xs ys := by
  induction xs with
  | nil => exact ⟨[], .nil⟩
  | cons x xs ih =>
    obtain ⟨y, hy⟩ := hall x List.mem_cons_self
    obtain ⟨ys, hys⟩ := ih fun other hmem => hall other (List.mem_cons_of_mem x hmem)
    exact ⟨y :: ys, .cons hy hys⟩

/-- The sites of a nested or-pattern are found where the enclosing alternatives
    agreed to bind its names. -/
theorem CompilesTo.exists_nestedSites {compiled : Compiled}
    (hdistinct : ∀ pattern ∈ alternatives, ∀ node ∈ pattern.nodes, node.StepsDistinct)
    (hcompiles : CompilesTo options alternatives expected path span pool certificate findings middle
      compiled later)
    (hcertified : ∀ binding ∈ under path (Pattern.or alternatives span).bindings,
      context.certificate.path? binding.1 = some binding.2) :
    ∃ sites, context.nestedSites compiled.procedure span compiled.environment.entries = .ok sites := by
  obtain ⟨-, hagree, hnodes⟩ := Pattern.certify_sound hcompiles.certified
  obtain ⟨sites, hsites⟩ : ∃ sites, List.Forall₂ (fun entry site => ∃ place,
      compiled.procedure.bindingPath? entry.name = some place ∧
      context.certificate.path? entry.name = some place ∧
      (⟨entry.name, context.alternative, entry.ascription, entry.type, place, span, true⟩ :
        BindingSite) = site) compiled.environment.entries sites := by
    refine exists_forall₂ fun entry hentry => ?_
    have hlisted : entry.name ∈ (under path (Pattern.bindingsFirst alternatives)).map Prod.fst := by
      rw [names_under, ← hcompiles.environment_names]
      exact List.mem_map.mpr ⟨entry, hentry, rfl⟩
    obtain ⟨place, hplace⟩ := Option.isSome_iff_exists.mp (lookup_isSome_iff_mem.mpr hlisted)
    refine ⟨_, place, ?_, hcertified _ (mem_of_lookup hplace), rfl⟩
    rw [hcompiles.bindingPath?_eq hdistinct hagree hnodes, hplace]
  exact ⟨sites, CollectContext.nestedSites_eq_ok_iff.mpr hsites⟩

end OrPattern
