import Mathlib.Data.List.Sort
import OrPattern.Proofs.Compile.BindingPath
import OrPattern.Proofs.Compile.Nested

namespace OrPattern

open Attempt

variable {options : Options} {pool later : Pool} {context : CollectContext} {expected : Ty}
  {path : Path} {findings : Findings} {certificate : Certificate} {alternatives : List Pattern}

/-- The sites found are those of one alternative, one for each name, where the
    certificate has the name, at or below a path. -/
structure Findings.SitesUnder (context : CollectContext) (path : Path) (findings : Findings) :
    Prop where
  alternative_eq : ∀ site ∈ findings.sites, site.alternative = context.alternative
  certified : ∀ site ∈ findings.sites, context.certificate.path? site.name = some site.path
  below : ∀ site ∈ findings.sites, path <+: site.path
  unique : (findings.sites.map BindingSite.name).Nodup

theorem Findings.sitesUnder_of_nil (hnil : findings.sites = []) :
    findings.SitesUnder context path where
  alternative_eq := by simp [hnil]
  certified := by simp [hnil]
  below := by simp [hnil]
  unique := by simp [hnil]

/-- The parts of a node lie at different places, so no name has a site in two of
    them: the certificate has one place for it. -/
theorem CollectsParts.sitesUnder {typeOf : Step → Option Ty} {parts : List (Step × Pattern)}
    (hcollects : CollectsParts options context path typeOf pool parts findings later)
    (hsteps : (parts.map fun part => part.1.clip).Nodup)
    (hparts : ∀ part ∈ parts, ∀ type start found next,
      (part.2.collect options context type (path ++ [part.1.clip])).Yields start found next →
        found.SitesUnder context (path ++ [part.1.clip])) :
    findings.SitesUnder context path ∧
      ∀ site ∈ findings.sites, ∃ part ∈ parts, path ++ [part.1.clip] <+: site.path := by
  induction hcollects with
  | nil => exact ⟨Findings.sitesUnder_of_nil rfl, nofun⟩
  | @cons pool middle later step pattern parts type first others _ head _ ih =>
    obtain ⟨hstep, hsteps⟩ := List.nodup_cons.mp hsteps
    have hfirst := hparts (step, pattern) List.mem_cons_self _ _ _ _ head
    obtain ⟨hothers, hplaces⟩ := ih hsteps fun part hmem => hparts part (List.mem_cons_of_mem _ hmem)
    have hsplit : ∀ site ∈ (first ++ others).sites, site ∈ first.sites ∨ site ∈ others.sites :=
      fun _ => List.mem_append.mp
    refine ⟨⟨fun site hmem => ?_, fun site hmem => ?_, fun site hmem => ?_, ?_⟩, fun site hmem => ?_⟩
    · exact (hsplit site hmem).elim (hfirst.alternative_eq site) (hothers.alternative_eq site)
    · exact (hsplit site hmem).elim (hfirst.certified site) (hothers.certified site)
    · refine (hsplit site hmem).elim (fun h => ?_) (hothers.below site)
      exact (List.prefix_append _ _).trans (hfirst.below site h)
    · have hsites : (first ++ others).sites = first.sites ++ others.sites := rfl
      rw [hsites, List.map_append, List.nodup_append]
      refine ⟨hfirst.unique, hothers.unique, fun name ha other hb hsame => ?_⟩
      obtain ⟨one, hone, rfl⟩ := List.mem_map.mp ha
      obtain ⟨two, htwo, rfl⟩ := List.mem_map.mp hb
      obtain ⟨part, hmem, hplace⟩ := hplaces two htwo
      refine ne_of_step_ne (fun heq => hstep ?_) (hfirst.below one hone) hplace ?_
      · exact List.mem_map.mpr ⟨part, hmem, heq.symm⟩
      · have hcertified := hfirst.certified one hone
        rw [hsame, hothers.certified two htwo] at hcertified
        exact (Option.some.inj hcertified).symm
    · rcases hsplit site hmem with hhead | htail
      · exact ⟨_, List.mem_cons_self, hfirst.below site hhead⟩
      · obtain ⟨part, hpart, hplace⟩ := hplaces site htail
        exact ⟨part, List.mem_cons_of_mem _ hpart, hplace⟩

/-- Each name of an alternative is found once, where the certificate has it, if the
    parts of each node lie at different places. The certificate may be one of other
    alternatives. -/
theorem Pattern.collect_sitesUnder (pattern : Pattern) (context : CollectContext) (expected : Ty)
    (path : Path) (pool : Pool) (findings : Findings) (later : Pool)
    (hdistinct : ∀ node ∈ pattern.nodes, node.StepsDistinct)
    (hcollect : (pattern.collect options context expected path).Yields pool findings later) :
    findings.SitesUnder context path := by
  induction pattern using inductParts generalizing context expected path pool findings later with
  | wildcard span =>
    obtain ⟨rfl, -⟩ := collect_wildcard_yields_iff.mp hcollect
    exact Findings.sitesUnder_of_nil rfl
  | bind name ascription span =>
    obtain ⟨site, hsite, rfl, -⟩ := collect_bind_yields_iff.mp hcollect
    obtain ⟨hcertified, rfl⟩ := CollectContext.site_eq_ok_iff.mp hsite
    exact ⟨List.forall_mem_singleton.mpr rfl, List.forall_mem_singleton.mpr hcertified,
      List.forall_mem_singleton.mpr (List.prefix_refl path), List.nodup_singleton _⟩
  | literal value span =>
    obtain ⟨-, rfl, -⟩ := collect_literal_yields_iff.mp hcollect
    exact Findings.sitesUnder_of_nil rfl
  | branch pattern hbranch ih =>
    obtain ⟨-, hparts⟩ := (collect_branch_yields_iff hbranch).mp hcollect
    have hsteps := steps_nodup (hdistinct pattern pattern.self_mem_nodes)
    refine (hparts.sitesUnder hsteps fun part hmem type start found next hyields => ?_).1
    refine ih part hmem context type _ start found next (fun node hnode => ?_) hyields
    exact hdistinct node (mem_nodes_of_part hmem hnode)
  | or alternatives span ih =>
    obtain ⟨-, certificate, inner, middle, compiled, sites, hcompiles, hsites, rfl⟩ :=
      collect_or_yields_iff.mp hcollect
    have hrepeated := CollectContext.nestedSites_eq_ok_iff.mp hsites
    obtain ⟨-, hagree, hchoices⟩ := certify_sound hcompiles.certified
    refine ⟨fun site hsite => ?_, fun site hsite => ?_, fun site hsite => ?_, ?_⟩
    · obtain ⟨entry, -, place, -, -, rfl⟩ := exists_of_forall₂ hrepeated hsite
      rfl
    · obtain ⟨entry, -, place, -, hcertified, rfl⟩ := exists_of_forall₂ hrepeated hsite
      exact hcertified
    · obtain ⟨entry, -, place, hplace, -, rfl⟩ := exists_of_forall₂ hrepeated hsite
      rw [hcompiles.bindingPath?_eq (stepsDistinct_or_iff.mp hdistinct) hagree hchoices] at hplace
      obtain ⟨binding, -, hbinding⟩ := List.mem_map.mp (mem_of_lookup hplace)
      exact (Prod.mk.inj hbinding).2 ▸ List.prefix_append path binding.2
    · rw [CollectContext.names_of_nestedSites hsites]
      exact hcompiles.names_nodup

namespace Findings

/-- The places of a name, as in an evidence. -/
def sitesOf (findings : Findings) (name : Name) : List BindingSite :=
  findings.sites.filter fun site => site.name = name

theorem sitesOf_append (first others : Findings) (name : Name) :
    (first ++ others).sitesOf name = first.sitesOf name ++ others.sitesOf name :=
  List.filter_append ..

theorem mem_of_mem_sitesOf {name : Name} {site : BindingSite} (hsite : site ∈ findings.sitesOf name) :
    site ∈ findings.sites :=
  List.mem_of_mem_filter hsite

/-- One alternative has at most one site for a name. -/
theorem SitesUnder.pairwise_sitesOf (hunder : findings.SitesUnder context path) (name : Name) :
    ((findings.sitesOf name).map BindingSite.alternative).Pairwise (· < ·) := by
  by_cases hname : name ∈ findings.sites.map BindingSite.name
  · obtain ⟨site, hsite⟩ := exists_filter_eq_singleton hunder.unique hname
    rw [sitesOf, hsite]
    exact List.pairwise_singleton _ _
  · have hnone : findings.sitesOf name = [] := by
      refine List.filter_eq_nil_iff.mpr fun site hsite hsame => hname ?_
      exact List.mem_map.mpr ⟨site, hsite, of_decide_eq_true hsame⟩
    rw [hnone]
    exact .nil

end Findings

/-- Over all alternatives the sites of a name stand in the order of the alternatives,
    no two in one of them, where the certificate has the name. -/
theorem collectAlternatives_ascending {index : Nat}
    (hdistinct : ∀ pattern ∈ alternatives, ∀ node ∈ pattern.nodes, node.StepsDistinct)
    (hcollects : (Pattern.collectAlternatives options alternatives certificate index expected
      path).Yields pool findings later) :
    (∀ site ∈ findings.sites, certificate.path? site.name = some site.path ∧
      index ≤ site.alternative ∧ site.alternative < index + alternatives.length) ∧
    ∀ name, ((findings.sitesOf name).map BindingSite.alternative).Pairwise (· < ·) := by
  induction alternatives generalizing index pool findings with
  | nil =>
    obtain ⟨rfl, -⟩ := Pattern.collectAlternatives_nil_yields_iff.mp hcollects
    exact ⟨nofun, fun _ => .nil⟩
  | cons pattern rest ih =>
    obtain ⟨first, middle, hfirst, others, hothers, rfl⟩ :=
      Pattern.collectAlternatives_cons_yields_iff.mp hcollects
    have hunder := pattern.collect_sitesUnder _ _ _ _ _ _
      (hdistinct pattern List.mem_cons_self) hfirst
    obtain ⟨hsites, hascending⟩ := ih (fun other hmem =>
      hdistinct other (List.mem_cons_of_mem _ hmem)) hothers
    have halternative : ∀ site ∈ first.sites, site.alternative = index := hunder.alternative_eq
    have hlength : (pattern :: rest).length = rest.length + 1 := rfl
    refine ⟨fun site hsite => ?_, fun name => ?_⟩
    · rcases List.mem_append.mp hsite with hhead | htail
      · have hown := halternative site hhead
        exact ⟨hunder.certified site hhead, by omega, by omega⟩
      · obtain ⟨hcertified, hlow, hhigh⟩ := hsites site htail
        exact ⟨hcertified, by omega, by omega⟩
    · rw [Findings.sitesOf_append, List.map_append, List.pairwise_append]
      refine ⟨hunder.pairwise_sitesOf name, hascending name, fun low hlow high hhigh => ?_⟩
      obtain ⟨one, hone, rfl⟩ := List.mem_map.mp hlow
      obtain ⟨two, htwo, rfl⟩ := List.mem_map.mp hhigh
      have hown := halternative one (Findings.mem_of_mem_sitesOf hone)
      have hlater := (hsites two (Findings.mem_of_mem_sitesOf htwo)).2.1
      omega

/-- As many numbers below a bound as the bound says, in ascending order, are all of
    them. -/
theorem eq_range_of_ascending {numbers : List Nat} {bound : Nat}
    (hascending : numbers.Pairwise (· < ·)) (hbelow : ∀ number ∈ numbers, number < bound)
    (hlength : numbers.length = bound) : numbers = List.range bound := by
  have hsubperm : numbers.Subperm (List.range bound) :=
    List.subperm_of_subset hascending.nodup fun number hmem => List.mem_range.mpr (hbelow number hmem)
  refine (List.sublist_of_subperm_of_pairwise hsubperm hascending List.pairwise_lt_range).eq_of_length ?_
  rw [hlength, List.length_range]

theorem Evidence.length_sites_of_reconcileNames {evidence : Evidence} {span : Span}
    {names : List Name} {environment result : Environment}
    (hyields : (evidence.reconcileNames span names environment).Yields pool result later) :
    ∀ name ∈ names, (evidence.sites name).length = evidence.alternatives := by
  induction names generalizing environment pool with
  | nil => exact nofun
  | cons name names ih =>
    obtain ⟨hcount, _, _, _, -, next, -, hrest⟩ := reconcileNames_cons_yields_iff.mp hyields
    exact List.forall_mem_cons.mpr ⟨hcount, ih hrest⟩

/-- What alternatives say about the names of a certificate, and the types that the
    names get. The certificate may be that of other alternatives. -/
def Pattern.evidenceAndTypes (options : Options) (alternatives : List Pattern)
    (certificate : Certificate) (scrutinee : Ty) (base : Path) (span : Span) :
    Attempt (Evidence × Environment) := do
  let evidence ← Pattern.evidence options alternatives certificate scrutinee base
  let environment ← evidence.reconcile span
  return (evidence, environment)

/-- Alternatives that are collected from and reconciled under a certificate, whatever
    it was made for, bind each of its names once in every alternative, at the place
    that it has there; else there is an error. This takes that no two parts of a node
    share a step: of the sites of a name only the number is compared with that of the
    alternatives. -/
theorem Pattern.one_site_in_each_alternative (options : Options) (alternatives : List Pattern)
    (certificate : Certificate) (scrutinee : Ty) (base : Path) (span : Span) (pool : Pool)
    (hdistinct : ∀ pattern ∈ alternatives, ∀ node ∈ pattern.nodes, node.StepsDistinct) :
    let run := (evidenceAndTypes options alternatives certificate scrutinee base span).runOn pool
    (∃ rejection, run.1 = .error rejection) ∨
      ∃ evidence environment, run.1 = .ok (evidence, environment) ∧
        environment.names = certificate.names ∧ ∀ name ∈ certificate.names,
          (evidence.sites name).map BindingSite.alternative = List.range alternatives.length ∧
          ∀ site ∈ evidence.sites name, certificate.path? name = some site.path := by
  intro run
  rcases hrun : run with ⟨rejection | ⟨evidence, environment⟩, later⟩
  · exact .inl ⟨rejection, rfl⟩
  refine .inr ⟨evidence, environment, rfl, ?_⟩
  obtain ⟨found, middle, hevidence, hrest⟩ := yields_bind_iff.mp hrun
  obtain ⟨result, last, hreconciled, hreturn⟩ := yields_bind_iff.mp hrest
  obtain ⟨heq, rfl⟩ := yields_pure_iff.mp hreturn
  cases heq
  obtain ⟨findings, next, hcollects, hpure⟩ := yields_bind_iff.mp hevidence
  obtain ⟨rfl, rfl⟩ := yields_pure_iff.mp hpure
  obtain ⟨hsites, hascending⟩ := collectAlternatives_ascending hdistinct hcollects
  refine ⟨Evidence.names_of_reconcileNames hreconciled, fun name hname => ⟨?_, fun site hsite => ?_⟩⟩
  · refine eq_range_of_ascending (hascending name) (fun number hnumber => ?_) ?_
    · obtain ⟨site, hsite, rfl⟩ := List.mem_map.mp hnumber
      have hbelow := (hsites site (Findings.mem_of_mem_sitesOf hsite)).2.2
      omega
    · exact (List.length_map _).trans
        (Evidence.length_sites_of_reconcileNames hreconciled name hname)
  · obtain ⟨hmem, hsame⟩ := List.mem_filter.mp hsite
    exact of_decide_eq_true hsame ▸ (hsites site hmem).1

/-- The certificate is that of another alternative, and a nested or-pattern binds the
    name in one of these. -/
theorem Pattern.one_site_in_each_alternative_of_nested :
    let bound := bind ⟨1⟩ none Span.none
    let fields := fun first second =>
      record [⟨⟨2⟩, first, Span.none⟩, ⟨⟨3⟩, second, Span.none⟩] false Span.none
    let alternatives := [fields (or [bound, bound] Span.none) (wildcard Span.none),
      fields bound (literal (.int 5) Span.none)]
    let certificate : Certificate := ⟨[(⟨1⟩, [.field ⟨2⟩])]⟩
    let run := (evidenceAndTypes {} alternatives certificate ⟨11⟩ [] Span.none).runOn
      (Pool.initial.record [(⟨2⟩, .i32), (⟨3⟩, .i8)]).2
    certify [fields bound (literal (.int 7) Span.none)] [] Span.none = .ok certificate ∧
      ∃ evidence environment, run.1 = .ok (evidence, environment) ∧
        (evidence.sites ⟨1⟩).map BindingSite.alternative = [0, 1] := by
  intro bound fields alternatives certificate run
  refine ⟨rfl, ?_⟩
  have hdistinct : ∀ pattern ∈ alternatives, ∀ node ∈ pattern.nodes, node.StepsDistinct := by
    simp [alternatives, fields, bound, nodes, nodesFields, nodesList, StepsDistinct]
  rcases one_site_in_each_alternative {} alternatives certificate ⟨11⟩ [] Span.none
      (Pool.initial.record [(⟨2⟩, .i32), (⟨3⟩, .i8)]).2 hdistinct with
    ⟨rejection, hrejected⟩ | ⟨evidence, environment, hrun, -, hsites⟩
  · have hfound : run.1.toOption.isSome = true := by decide +kernel
    rw [hrejected] at hfound
    cases hfound
  · exact ⟨evidence, environment, hrun, (hsites ⟨1⟩ List.mem_cons_self).1⟩

/-- A record pattern that mentions a field twice has two sites for a name in one
    alternative, and they pass for that of an alternative that has none. -/
theorem Pattern.repeated_field_hides_missing_site :
    let bound := bind ⟨2⟩ none Span.none
    let fields := fun patterns : List Pattern =>
      record (patterns.map fun pattern => ⟨⟨1⟩, pattern, Span.none⟩) false Span.none
    let certificate : Certificate := ⟨[(⟨2⟩, [.field ⟨1⟩])]⟩
    let run := (evidenceAndTypes {} [fields [bound, bound], fields [wildcard Span.none]] certificate
      ⟨11⟩ [] Span.none).runOn (Pool.initial.record [(⟨1⟩, .i32)]).2
    certify [fields [bound]] [] Span.none = .ok certificate ∧
      run.1.toOption.map (fun found => ((found.1.sites ⟨2⟩).map BindingSite.alternative, found.2)) =
        some ([0, 0], ⟨[⟨⟨2⟩, .i32, .inferred⟩]⟩) := by
  refine ⟨rfl, ?_⟩
  decide +kernel

end OrPattern
