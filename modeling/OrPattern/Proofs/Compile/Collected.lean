import OrPattern.Proofs.Compile.Summary
import OrPattern.Proofs.Shape.Certify

namespace OrPattern

open Attempt

variable {options : Options} {base pool later : Pool} {context : CollectContext} {expected : Ty}
  {path : Path} {findings : Findings}

/-- What collecting from an alternative brings to light about its names: one site
    for each of them, which speaks for all its places. The places are those that
    the types of the base pool give. -/
structure Collected (base pool : Pool) (alternative : Nat) (expected : Ty) (pattern : Pattern)
    (findings : Findings) : Prop where
  names : findings.sites.map BindingSite.name = pattern.names
  alternative_eq : ∀ site ∈ findings.sites, site.alternative = alternative
  summary : ∀ site ∈ findings.sites,
    Summary pool (Pattern.BindsAt base expected pattern site.name) site.ascription site.inferred

theorem Collected.of_nil {alternative : Nat} {pattern : Pattern} (hnames : pattern.names = [])
    (hsites : findings.sites = []) : Collected base pool alternative expected pattern findings where
  names := by rw [hnames, hsites, List.map_nil]
  alternative_eq := by simp [hsites]
  summary := by simp [hsites]

theorem CollectContext.names_of_nestedSites {procedure : Procedure} {span : Span}
    {entries : List EnvironmentEntry} {sites : List BindingSite}
    (hsites : context.nestedSites procedure span entries = .ok sites) :
    sites.map BindingSite.name = entries.map EnvironmentEntry.name := by
  refine Eq.symm ?_
  rw [← List.forall₂_eq_eq_eq, List.forall₂_map_left_iff, List.forall₂_map_right_iff]
  refine (nestedSites_eq_ok_iff.mp hsites).imp fun entry site h => ?_
  obtain ⟨place, -, -, rfl⟩ := h
  rfl

/-- Where no key occurs twice, a key that occurs picks out one item. -/
theorem exists_filter_eq_singleton {α : Type} {key : α → Name} {items : List α} {name : Name}
    (hnodup : (items.map key).Nodup) (hmem : name ∈ items.map key) :
    ∃ item, items.filter (fun item => key item = name) = [item] := by
  apply List.length_eq_one_iff.mp
  have hcount : (items.map key).count name = 1 := List.count_eq_one_of_mem hnodup hmem
  rw [List.count_eq_countP, List.countP_map, List.countP_eq_length_filter] at hcount
  simpa [Function.comp_def, beq_eq_decide] using hcount

/-- Of the sites of an alternative one is that of a name it binds. -/
theorem Collected.exists_filter {alternative : Nat} {pattern : Pattern} {name : Name}
    (hcollected : Collected base pool alternative expected pattern findings)
    (hnodup : pattern.names.Nodup) (hname : name ∈ pattern.names) :
    ∃ site ∈ findings.sites, findings.sites.filter (fun site => site.name = name) = [site] ∧
      site.name = name := by
  rw [← hcollected.names] at hnodup hname
  obtain ⟨site, hfilter⟩ := exists_filter_eq_singleton hnodup hname
  have hmem : site ∈ findings.sites.filter fun site => site.name = name := by simp [hfilter]
  obtain ⟨hsite, hsame⟩ := List.mem_filter.mp hmem
  exact ⟨site, hsite, hfilter, of_decide_eq_true hsame⟩

/-- The sites of the parts of a pattern, each of which speaks for the places in its
    part. -/
theorem CollectsParts.collected {typeOf : Step → Option Ty} {parts : List (Step × Pattern)}
    (hpool : pool.WellFormed) (hkept : base.KeptBy pool)
    (hknown : ∀ step type, typeOf step = some type → base.contains type)
    (hcollects : CollectsParts options context path typeOf pool parts findings later)
    (hparts : ∀ part ∈ parts, ∀ type start found next, typeOf part.1 = some type →
      start.WellFormed → base.KeptBy start →
      (part.2.collect options context type (path ++ [part.1.clip])).Yields start found next →
        Collected base next context.alternative type part.2 found) :
    findings.sites.map BindingSite.name = (parts.flatMap fun part => part.2.names) ∧
      ∀ site ∈ findings.sites, site.alternative = context.alternative ∧
        ∃ part ∈ parts, ∃ type, typeOf part.1 = some type ∧ site.name ∈ part.2.names ∧
          Summary later (Pattern.BindsAt base type part.2 site.name) site.ascription
            site.inferred := by
  induction hcollects with
  | nil => exact ⟨rfl, nofun⟩
  | @cons pool middle later step pattern parts type first others typed head tail ih =>
    have hfirst := hparts (step, pattern) List.mem_cons_self type _ _ _ typed hpool hkept head
    have hcontains := hknown step type typed
    obtain ⟨hmiddle, hstep⟩ := (pattern.collect_grows _ _ _ _ _ _ hpool (hkept.contains hcontains)
      head).1.keeps hpool
    have hkept' := hkept.trans hstep
    obtain ⟨hnames, hsites⟩ := ih hmiddle hkept' fun part hmem => hparts part (List.mem_cons_of_mem _ hmem)
    have hrest : middle.KeptBy later := ((tail.grows hmiddle fun step type htype =>
      hkept'.contains (hknown step type htype)).1.keeps hmiddle).2
    refine ⟨?_, fun site hsite => ?_⟩
    · have hsplit : (first ++ others).sites = first.sites ++ others.sites := rfl
      rw [hsplit, List.map_append, List.flatMap_cons, hfirst.names, hnames]
    · rcases List.mem_append.mp hsite with hsite | hsite
      · refine ⟨hfirst.alternative_eq site hsite, (step, pattern), List.mem_cons_self, type, typed,
          ?_, (hfirst.summary site hsite).mono hrest⟩
        exact hfirst.names ▸ List.mem_map.mpr ⟨site, hsite, rfl⟩
      · obtain ⟨halternative, part, hmem, hpart⟩ := hsites site hsite
        exact ⟨halternative, part, List.mem_cons_of_mem _ hmem, hpart⟩

/-- A name of a node has its places in the one part that binds it, so the site of
    the part speaks for all of them. -/
theorem Collected.of_parts {pattern : Pattern} (hpool : pool.WellFormed) (hkept : base.KeptBy pool)
    (hbase : base.WellFormed) (hbranch : pattern.isBranch)
    (hagree : ∀ node ∈ pattern.nodes, node.ChoicesAgree) (hnodup : pattern.names.Nodup)
    (hcollects : CollectsParts options context path (pattern.partType? base expected) pool
      pattern.parts findings later)
    (hparts : ∀ part ∈ pattern.parts, ∀ type start found next,
      pattern.partType? base expected part.1 = some type → start.WellFormed → base.KeptBy start →
      (part.2.collect options context type (path ++ [part.1.clip])).Yields start found next →
        Collected base next context.alternative type part.2 found) :
    Collected base later context.alternative expected pattern findings := by
  obtain ⟨hnames, hsites⟩ := hcollects.collected hpool hkept
    (fun step type htype => Pattern.partType?_known hbase htype) hparts
  refine ⟨?_, fun site hsite => (hsites site hsite).1, fun site hsite => ?_⟩
  · rw [hnames, Pattern.names, Pattern.bindings_branch hbranch, Pattern.names_parts]
  · obtain ⟨-, part, hmem, type, htype, hname, hsummary⟩ := hsites site hsite
    refine hsummary.congr fun stated place => ?_
    rw [Pattern.bindsAt_branch_iff hbranch]
    constructor
    · exact fun hplace => ⟨part, hmem, type, htype, hplace⟩
    · rintro ⟨other, hother, otherType, hotherType, hplace⟩
      have hotherName :=
        Pattern.mem_names_of_bindsAt (Pattern.forall_nodes_of_part hagree hother) hplace
      obtain rfl := Pattern.part_eq_of_mem_names hbranch hnodup hmem hother hname hotherName
      cases htype.symm.trans hotherType
      exact hplace

namespace Pattern

variable {alternatives : List Pattern} {certificate : Certificate} {index : Nat} {place : Path}

/-- Alternatives that bind a name have one site each for it, in their order, if what
    is collected from each of them keeps the pool as it has to be. -/
theorem collectAlternatives_sites_of_steps (Holds : Pool → Prop) {name : Name} (hpool : Holds pool)
    (hcollects : (collectAlternatives options alternatives certificate index expected place).Yields
      pool findings later)
    (hsteps : ∀ pattern ∈ alternatives, ∀ context start found next, Holds start →
      (pattern.collect options context expected place).Yields start found next →
        Holds next ∧ start.KeptBy next ∧
          Collected base next context.alternative expected pattern found)
    (hunique : ∀ pattern ∈ alternatives, pattern.names.Nodup)
    (hname : ∀ pattern ∈ alternatives, name ∈ pattern.names) :
    pool.KeptBy later ∧ List.Forall₂ (fun choice site => site.alternative = choice.2 ∧
      Summary later (BindsAt base expected choice.1 name) site.ascription site.inferred)
      (alternatives.zipIdx index) (findings.sites.filter fun site => site.name = name) := by
  induction alternatives generalizing index pool findings with
  | nil =>
    obtain ⟨rfl, rfl⟩ := collectAlternatives_nil_yields_iff.mp hcollects
    exact ⟨Pool.KeptBy.refl pool, .nil⟩
  | cons pattern rest ih =>
    obtain ⟨first, middle, hfirst, others, hothers, rfl⟩ :=
      collectAlternatives_cons_yields_iff.mp hcollects
    obtain ⟨hmiddle, hstep, hcollected⟩ :=
      hsteps pattern List.mem_cons_self _ _ _ _ hpool hfirst
    obtain ⟨hrest, hsites⟩ := ih hmiddle hothers
      (fun other hmem => hsteps other (List.mem_cons_of_mem _ hmem))
      (fun other hmem => hunique other (List.mem_cons_of_mem _ hmem))
      (fun other hmem => hname other (List.mem_cons_of_mem _ hmem))
    obtain ⟨site, hsite, hfilter, hsame⟩ := hcollected.exists_filter
      (hunique pattern List.mem_cons_self) (hname pattern List.mem_cons_self)
    have hsplit : ((first ++ others).sites.filter fun site => site.name = name) =
        site :: others.sites.filter fun site => site.name = name := by
      have happend : (first ++ others).sites = first.sites ++ others.sites := rfl
      rw [happend, List.filter_append, hfilter, List.singleton_append]
    rw [hsplit, List.zipIdx_cons]
    refine ⟨hstep.trans hrest, .cons ⟨hcollected.alternative_eq site hsite, ?_⟩ hsites⟩
    exact hsame ▸ (hcollected.summary site hsite).mono hrest

theorem collectAlternatives_sites (hpool : pool.WellFormed) (hkept : base.KeptBy pool)
    (hknown : base.contains expected) {name : Name}
    (hcollects : (collectAlternatives options alternatives certificate index expected place).Yields
      pool findings later)
    (hpatterns : ∀ pattern ∈ alternatives, ∀ context start found next, start.WellFormed →
      base.KeptBy start → (pattern.collect options context expected place).Yields start found next →
        Collected base next context.alternative expected pattern found)
    (hunique : ∀ pattern ∈ alternatives, pattern.names.Nodup)
    (hname : ∀ pattern ∈ alternatives, name ∈ pattern.names) :
    List.Forall₂ (fun pattern site => Summary later (BindsAt base expected pattern name)
      site.ascription site.inferred) alternatives
      (findings.sites.filter fun site => site.name = name) := by
  obtain ⟨-, hsites⟩ := collectAlternatives_sites_of_steps
    (fun pool => pool.WellFormed ∧ base.KeptBy pool) ⟨hpool, hkept⟩ hcollects
    (fun pattern hmem context start found next hstart hyields => by
      obtain ⟨hnext, hstep⟩ := (pattern.collect_grows _ _ _ _ _ _ hstart.1
        (hstart.2.contains hknown) hyields).1.keeps hstart.1
      exact ⟨⟨hnext, hstart.2.trans hstep⟩, hstep,
        hpatterns pattern hmem context start found next hstart.1 hstart.2 hyields⟩) hunique hname
  rw [← List.zipIdx_map_fst index alternatives, List.forall₂_map_left_iff]
  exact hsites.imp fun _ _ => And.right

/-- Certified alternatives have one site each for every name of their
    certificate. -/
theorem certified_sites (hpool : pool.WellFormed) (hkept : base.KeptBy pool)
    (hknown : base.contains expected) {span : Span}
    (hcertify : certify alternatives place span = .ok certificate)
    (hcollects : (collectAlternatives options alternatives certificate index expected place).Yields
      pool findings later)
    (hpatterns : ∀ pattern ∈ alternatives, ∀ context start found next, start.WellFormed →
      base.KeptBy start → (pattern.collect options context expected place).Yields start found next →
        Collected base next context.alternative expected pattern found) :
    ∀ name ∈ certificate.names, List.Forall₂ (fun pattern site =>
      Summary later (BindsAt base expected pattern name) site.ascription site.inferred) alternatives
      (findings.sites.filter fun site => site.name = name) := by
  intro name hname
  obtain ⟨-, hagree, -⟩ := certify_sound hcertify
  rw [names_of_certify hcertify] at hname
  exact collectAlternatives_sites hpool hkept hknown hcollects hpatterns hagree.unique
    fun pattern hmem => (hagree.names_perm hmem).mem_iff.mpr hname

end Pattern

namespace CompilesTo

variable {alternatives : List Pattern} {span : Span} {certificate : Certificate} {middle : Pool}
  {compiled : Compiled}

/-- The environment lists the names of the leftmost alternative in its order. -/
theorem environment_names (hcompiles : CompilesTo options alternatives expected path span pool
    certificate findings middle compiled later) :
    compiled.environment.names = (Pattern.bindingsFirst alternatives).map Prod.fst := by
  rw [Evidence.names_of_reconcileNames hcompiles.reconciled]
  exact Pattern.names_of_certify hcompiles.certified

/-- No name stands twice in an environment. -/
theorem names_nodup (hcompiles : CompilesTo options alternatives expected path span pool
    certificate findings middle compiled later) : compiled.environment.names.Nodup := by
  obtain ⟨-, hagree, -⟩ := Pattern.certify_sound hcompiles.certified
  rw [hcompiles.environment_names]
  exact hagree.nodup_first

/-- Each entry of the environment speaks for all places of its name, if what is
    collected from each alternative speaks for the places in it. -/
theorem summary_of_alternatives (hpool : pool.WellFormed) (hkept : base.KeptBy pool)
    (hknown : base.contains expected) (hnonempty : alternatives ≠ [])
    (hcompiles : CompilesTo options alternatives expected path span pool certificate findings middle
      compiled later)
    (hpatterns : ∀ pattern ∈ alternatives, ∀ context start found next, start.WellFormed →
      base.KeptBy start → (pattern.collect options context expected path).Yields start found next →
        Collected base next context.alternative expected pattern found) :
    ∀ entry ∈ compiled.environment.entries,
      Summary later (Pattern.BindsAt base expected (.or alternatives span) entry.name)
          entry.ascription entry.type ∧
        Admitted later (Pattern.BindsAt base expected (.or alternatives span) entry.name) := by
  obtain ⟨⟨hgrows, hfindings⟩, -⟩ := hcompiles.grows hpool (hkept.contains hknown) hnonempty
  obtain ⟨hmiddle, hstep⟩ := hgrows.keeps hpool
  have hsites := Pattern.certified_sites hpool hkept hknown hcompiles.certified hcompiles.collected
    hpatterns
  have hentries := Evidence.summary_of_reconcileNames hmiddle
    (fun h => hnonempty (List.length_eq_zero_iff.mp h)) hfindings hsites
    (fun entry hmem => absurd hmem List.not_mem_nil) hcompiles.reconciled
  have hplaces : ∀ name, AmongPlaces alternatives (fun pattern => Pattern.BindsAt base expected pattern
      name) = Pattern.BindsAt base expected (.or alternatives span) name := fun name =>
    funext fun stated => funext fun type => propext Pattern.bindsAt_or_iff.symm
  intro entry hmem
  rw [← hplaces]
  exact hentries entry hmem

end CompilesTo

namespace Pattern

/-- Collecting from a pattern finds one site for each name, which speaks for its
    places. -/
theorem collect_collected (pattern : Pattern) (context : CollectContext) (expected : Ty)
    (path : Path) (pool : Pool) (findings : Findings) (later : Pool) (hbase : base.WellFormed)
    (hpool : pool.WellFormed) (hkept : base.KeptBy pool) (hknown : base.contains expected)
    (hagree : ∀ node ∈ pattern.nodes, node.ChoicesAgree) (hnodup : pattern.names.Nodup)
    (hcollect : (pattern.collect options context expected path).Yields pool findings later) :
    Collected base later context.alternative expected pattern findings := by
  induction pattern using inductParts generalizing context expected path pool findings later with
  | wildcard span =>
    obtain ⟨rfl, -⟩ := collect_wildcard_yields_iff.mp hcollect
    exact .of_nil rfl rfl
  | literal value span =>
    obtain ⟨-, rfl, -⟩ := collect_literal_yields_iff.mp hcollect
    exact .of_nil rfl rfl
  | bind name ascription span =>
    obtain ⟨site, hsite, rfl, -⟩ := collect_bind_yields_iff.mp hcollect
    obtain ⟨-, rfl⟩ := CollectContext.site_eq_ok_iff.mp hsite
    refine ⟨rfl, fun site hmem => ?_, fun site hmem => ?_⟩
    · rw [List.mem_singleton.mp hmem]
    · rw [List.mem_singleton.mp hmem]
      apply Summary.of_place
      intro stated type
      rw [bindsAt_bind_iff]
      exact and_iff_right rfl
  | branch pattern hbranch ih =>
    obtain ⟨-, hparts⟩ := (collect_branch_yields_iff hbranch).mp hcollect
    rw [funext (partType?_eq hkept hknown pattern)] at hparts
    exact .of_parts hpool hkept hbase hbranch hagree hnodup hparts
      fun part hmem type start found next htype hstart hkept' hyields =>
        ih part hmem context type _ start found next hstart hkept' (partType?_known hbase htype)
          (forall_nodes_of_part hagree hmem) (names_nodup_of_part hbranch hnodup hmem) hyields
  | or alternatives span ih =>
    obtain ⟨hmany, certificate, inner, middle, compiled, sites, hcompiles, hsites, rfl⟩ :=
      collect_or_yields_iff.mp hcollect
    have hnonempty : alternatives ≠ [] := List.ne_nil_of_length_pos (by omega)
    have hchoices : Agree alternatives := hagree _ (self_mem_nodes _)
    have hentries := hcompiles.summary_of_alternatives hpool hkept hknown hnonempty
      fun pattern hmem context start found next hstart hkept' hyields =>
        ih pattern hmem context expected path start found next hstart hkept' hknown
          (forall_nodes_of_choice hagree hmem) (hchoices.unique pattern hmem) hyields
    have hrepeated := CollectContext.nestedSites_eq_ok_iff.mp hsites
    refine ⟨?_, fun site hsite => ?_, fun site hsite => ?_⟩
    · exact (CollectContext.names_of_nestedSites hsites).trans hcompiles.environment_names
    · obtain ⟨entry, -, place, -, -, rfl⟩ := exists_of_forall₂ hrepeated hsite
      rfl
    · obtain ⟨entry, hmem, place, -, -, rfl⟩ := exists_of_forall₂ hrepeated hsite
      exact (hentries entry hmem).1

end Pattern

/-- Each entry of the environment speaks for all places of its name. -/
theorem CompilesTo.summary {alternatives : List Pattern} {span : Span} {certificate : Certificate}
    {middle : Pool} {compiled : Compiled} (hbase : base.WellFormed) (hpool : pool.WellFormed)
    (hkept : base.KeptBy pool) (hknown : base.contains expected) (hnonempty : alternatives ≠ [])
    (hcompiles : CompilesTo options alternatives expected path span pool certificate findings middle
      compiled later) :
    ∀ entry ∈ compiled.environment.entries,
      Summary later (Pattern.BindsAt base expected (.or alternatives span) entry.name)
          entry.ascription entry.type ∧
        Admitted later (Pattern.BindsAt base expected (.or alternatives span) entry.name) := by
  obtain ⟨-, hagree, hnodes⟩ := Pattern.certify_sound hcompiles.certified
  exact hcompiles.summary_of_alternatives hpool hkept hknown hnonempty
    fun pattern hmem context start found next hstart hkept' hyields =>
      pattern.collect_collected context expected path start found next hbase hstart hkept' hknown
        (hnodes pattern hmem) (hagree.unique pattern hmem) hyields

end OrPattern
