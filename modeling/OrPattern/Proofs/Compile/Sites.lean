import OrPattern.Proofs.Compile.Collected

namespace OrPattern

open Attempt

variable {options : Options} {pool later : Pool} {context : CollectContext} {expected : Ty}
  {path : Path} {findings : Findings} {alternatives : List Pattern} {certificate : Certificate}
  {index : Nat}

/-- What tells the sites of an evidence apart. -/
def BindingSite.key (site : BindingSite) : Name × Nat := (site.name, site.alternative)

theorem CollectContext.keys_of_nestedSites {procedure : Procedure} {span : Span}
    {entries : List EnvironmentEntry} {sites : List BindingSite}
    (hsites : context.nestedSites procedure span entries = .ok sites) :
    sites.map BindingSite.key = entries.map fun entry => (entry.name, context.alternative) := by
  refine Eq.symm ?_
  rw [← List.forall₂_eq_eq_eq, List.forall₂_map_left_iff, List.forall₂_map_right_iff]
  refine (nestedSites_eq_ok_iff.mp hsites).imp fun entry site h => ?_
  obtain ⟨place, -, -, rfl⟩ := h
  rfl

theorem CollectsParts.keys {typeOf : Step → Option Ty} {parts : List (Step × Pattern)}
    (hcollects : CollectsParts options context path typeOf pool parts findings later)
    (hparts : ∀ part ∈ parts, ∀ type start found next,
      (part.2.collect options context type (path ++ [part.1.clip])).Yields start found next →
        found.sites.map BindingSite.key = part.2.names.map fun name => (name, context.alternative)) :
    findings.sites.map BindingSite.key =
      (parts.flatMap fun part => part.2.names).map fun name => (name, context.alternative) := by
  induction hcollects with
  | nil => rfl
  | @cons pool middle later step pattern parts type first others typed head tail ih =>
    have hfirst := hparts (step, pattern) List.mem_cons_self type _ _ _ head
    have hothers := ih fun part hmem => hparts part (List.mem_cons_of_mem _ hmem)
    have hsplit : (first ++ others).sites = first.sites ++ others.sites := rfl
    rw [hsplit, List.map_append, hfirst, hothers, List.flatMap_cons, List.map_append]

namespace Pattern

/-- A pattern has one site for each name it binds, in the order of its names. -/
theorem collect_keys (pattern : Pattern) (context : CollectContext) (expected : Ty) (path : Path)
    (pool : Pool) (findings : Findings) (later : Pool)
    (hcollect : (pattern.collect options context expected path).Yields pool findings later) :
    findings.sites.map BindingSite.key =
      pattern.names.map fun name => (name, context.alternative) := by
  induction pattern using inductParts generalizing context expected path pool findings later with
  | wildcard span =>
    obtain ⟨rfl, -⟩ := collect_wildcard_yields_iff.mp hcollect
    rfl
  | literal value span =>
    obtain ⟨-, rfl, -⟩ := collect_literal_yields_iff.mp hcollect
    rfl
  | bind name ascription span =>
    obtain ⟨site, hsite, rfl, -⟩ := collect_bind_yields_iff.mp hcollect
    obtain ⟨-, rfl⟩ := CollectContext.site_eq_ok_iff.mp hsite
    rfl
  | branch pattern hbranch ih =>
    obtain ⟨-, hparts⟩ := (collect_branch_yields_iff hbranch).mp hcollect
    rw [names, bindings_branch hbranch, names_parts]
    exact hparts.keys fun part hmem type start found next hyields =>
      ih part hmem context type _ start found next hyields
  | or alternatives span ih =>
    obtain ⟨-, certificate, inner, middle, compiled, sites, hcompiles, hsites, rfl⟩ :=
      collect_or_yields_iff.mp hcollect
    have hnames : compiled.environment.names = (or alternatives span).names :=
      hcompiles.environment_names
    rw [CollectContext.keys_of_nestedSites hsites, ← hnames, Environment.names, List.map_map]
    rfl

/-- The sites of a name in one alternative that binds no name twice. -/
theorem length_sites_of_collect {pattern : Pattern} {name : Name}
    (hcollect : (pattern.collect options context expected path).Yields pool findings later)
    (hunique : pattern.names.Nodup) (hname : name ∈ pattern.names) :
    (findings.sites.filter fun site => site.name = name).length = 1 := by
  have hnames : findings.sites.map BindingSite.name = pattern.names := by
    have hkeys := congrArg (List.map Prod.fst) (pattern.collect_keys _ _ _ _ _ _ hcollect)
    simpa only [List.map_map, Function.comp_def, BindingSite.key, List.map_id'] using hkeys
  rw [← hnames] at hunique hname
  obtain ⟨site, hfilter⟩ := exists_filter_eq_singleton hunique hname
  rw [hfilter, List.length_singleton]

/-- Alternatives that all bind a name have as many sites for it as there are
    alternatives. -/
theorem length_sites_of_collectAlternatives {name : Name}
    (hcollects : (collectAlternatives options alternatives certificate index expected path).Yields
      pool findings later) (hunique : ∀ pattern ∈ alternatives, pattern.names.Nodup)
    (hname : ∀ pattern ∈ alternatives, name ∈ pattern.names) :
    (findings.sites.filter fun site => site.name = name).length = alternatives.length := by
  induction alternatives generalizing index pool findings with
  | nil =>
    obtain ⟨rfl, -⟩ := collectAlternatives_nil_yields_iff.mp hcollects
    rfl
  | cons pattern rest ih =>
    obtain ⟨first, middle, hfirst, others, hothers, rfl⟩ :=
      collectAlternatives_cons_yields_iff.mp hcollects
    have hhead := length_sites_of_collect hfirst (hunique pattern List.mem_cons_self)
      (hname pattern List.mem_cons_self)
    have htail := ih hothers (fun other hmem => hunique other (List.mem_cons_of_mem _ hmem))
      (fun other hmem => hname other (List.mem_cons_of_mem _ hmem))
    have hsplit : (first ++ others).sites = first.sites ++ others.sites := rfl
    rw [hsplit, List.filter_append, List.length_append, hhead, htail, List.length_cons, Nat.add_comm]

/-- Over all alternatives, name and alternative together tell the sites apart. -/
theorem keys_nodup_of_collectAlternatives
    (hcollects : (collectAlternatives options alternatives certificate index expected path).Yields
      pool findings later) (hunique : ∀ pattern ∈ alternatives, pattern.names.Nodup) :
    (findings.sites.map BindingSite.key).Nodup ∧
      ∀ site ∈ findings.sites, index ≤ site.alternative := by
  induction alternatives generalizing index pool findings with
  | nil =>
    obtain ⟨rfl, -⟩ := collectAlternatives_nil_yields_iff.mp hcollects
    exact ⟨List.nodup_nil, nofun⟩
  | cons pattern rest ih =>
    obtain ⟨first, middle, hfirst, others, hothers, rfl⟩ :=
      collectAlternatives_cons_yields_iff.mp hcollects
    have hkeys := pattern.collect_keys _ _ _ _ _ _ hfirst
    have halternative : ∀ site ∈ first.sites, site.alternative = index := by
      intro site hsite
      have hkey : site.key ∈ first.sites.map BindingSite.key := List.mem_map.mpr ⟨site, hsite, rfl⟩
      rw [hkeys] at hkey
      obtain ⟨name, -, hname⟩ := List.mem_map.mp hkey
      exact (Prod.mk.inj hname).2.symm
    obtain ⟨hothersUnique, hlater⟩ := ih hothers fun other hmem =>
      hunique other (List.mem_cons_of_mem _ hmem)
    have hsplit : (first ++ others).sites = first.sites ++ others.sites := rfl
    rw [hsplit, List.map_append]
    refine ⟨List.nodup_append.mpr ⟨?_, hothersUnique, fun a ha b hb hsame => ?_⟩, fun site hmem => ?_⟩
    · rw [hkeys]
      exact (hunique pattern List.mem_cons_self).map fun a b h => (Prod.mk.inj h).1
    · obtain ⟨one, hone, rfl⟩ := List.mem_map.mp ha
      obtain ⟨other, hother, rfl⟩ := List.mem_map.mp hb
      have hsame := (Prod.mk.inj hsame).2
      have hbound := hlater other hother
      have hown := halternative one hone
      omega
    · rcases List.mem_append.mp hmem with hhead | htail
      · exact Nat.le_of_eq (halternative site hhead).symm
      · exact Nat.le_of_succ_le (hlater site htail)

end Pattern

/-- A site is what is found under its name in its alternative. -/
theorem Evidence.site?_of_mem {evidence : Evidence} {site : BindingSite}
    (hunique : (evidence.findings.sites.map BindingSite.key).Nodup)
    (hmem : site ∈ evidence.findings.sites) :
    evidence.site? site.name site.alternative = some site := by
  have hsome : (evidence.site? site.name site.alternative).isSome := by
    rw [Evidence.site?, List.find?_isSome]
    exact ⟨site, List.mem_filter.mpr ⟨hmem, decide_eq_true rfl⟩, decide_eq_true rfl⟩
  obtain ⟨found, hfound⟩ := Option.isSome_iff_exists.mp hsome
  obtain ⟨hfoundMem, hname⟩ := List.mem_filter.mp (List.mem_of_find?_eq_some hfound)
  have halternative := List.find?_some hfound
  have hkey : found.key = site.key :=
    Prod.ext (of_decide_eq_true hname) (of_decide_eq_true halternative)
  rw [hfound, List.inj_on_of_nodup_map hunique hfoundMem hmem hkey]

end OrPattern
