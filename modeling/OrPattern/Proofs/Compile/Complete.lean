import OrPattern.Proofs.Compile.Emission
import OrPattern.Proofs.Compile.Sound

namespace OrPattern

open Attempt

variable {options : Options} {base pool later : Pool} {context : CollectContext} {expected : Ty}
  {path : Path} {findings : Findings} {alternatives : List Pattern} {pattern : Pattern} {span : Span}
  {certificate : Certificate} {middle : Pool} {compiled : Compiled}

/-- A name gets its type if its types can be brought together and there is one site
    for each alternative. -/
theorem Pattern.Reconciles.exists_reconcileName {name : Name} {sites : List BindingSite}
    (hbase : base.WellFormed) (hpool : pool.WellFormed) (hkept : base.KeptBy pool)
    (hknown : base.contains expected) (hnonempty : sites ≠ [])
    (hsitesKnown : ∀ site ∈ sites, site.ascription = none → pool.contains site.inferred)
    (hsites : List.Forall₂ (fun pattern site => Summary pool (pattern.BindsAt base expected name)
      site.ascription site.inferred) alternatives sites)
    (hreconciles : Reconciles base expected (or alternatives span) name) :
    ∃ type origin later, (BindingSite.reconcileName name span sites).Yields pool (type, origin)
      later := by
  have hplaces : ∀ stated type, AmongPlaces alternatives
      (fun pattern => pattern.BindsAt base expected name) stated type ↔
        BindsAt base expected (or alternatives span) name stated type :=
    fun _ _ => bindsAt_or_iff.symm
  refine BindingSite.exists_reconcileName_of_places hpool hnonempty hsitesKnown hsites ?_ ?_
  · intro ascribed type hplace
    have hbelow := hreconciles.admitted ascribed type ((hplaces _ _).mp hplace)
    exact (hbase.isSubtype_iff.mp hbelow).mono hkept
  · rcases hreconciles.settled with ⟨hnone, bounded, bound, hgrows, hbound⟩ | ⟨upper, place, hplace, habove⟩
    · refine .inl ⟨fun stated type hplace => hnone stated type ((hplaces _ _).mp hplace), ?_⟩
      intro habsent
      obtain ⟨hbounded, hboundedKept⟩ := hgrows.keeps hbase
      have hbaseAbsent := habsent.of_later hbase hpool hkept fun type hplace =>
        ((hplaces _ _).mp hplace).known hbase hknown
      refine hbaseAbsent bounded hbounded hboundedKept bound fun type hplace => ?_
      exact hbounded.isSubtype_iff.mp (hbound type ((hplaces _ _).mp hplace))
    · refine .inr ⟨upper, place, (hplaces _ _).mpr hplace, fun stated type hother => ?_⟩
      have hbelow := habove stated type ((hplaces _ _).mp hother)
      exact (hbase.isSubtype_iff.mp hbelow).mono hkept

/-- All names get their types, if those of each can be brought together. -/
theorem Evidence.exists_reconcileNames {evidence : Evidence} {names : List Name}
    {environment : Environment} (hbase : base.WellFormed) (hpool : pool.WellFormed)
    (hkept : base.KeptBy pool) (hknown : base.contains expected) (hnonempty : alternatives ≠ [])
    (hcount : evidence.alternatives = alternatives.length)
    (hfindings : evidence.findings.Known pool)
    (hsites : ∀ name ∈ names, List.Forall₂ (fun pattern site =>
      Summary pool (pattern.BindsAt base expected name) site.ascription site.inferred) alternatives
      (evidence.sites name))
    (hreconciles : ∀ name ∈ names, Pattern.Reconciles base expected (.or alternatives span) name)
    (hnodup : names.Nodup) (hfresh : ∀ name ∈ names, name ∉ environment.names) :
    ∃ result later, (evidence.reconcileNames span names environment).Yields pool result later := by
  induction names generalizing pool environment with
  | nil => exact ⟨environment, pool, reconcileNames_nil_yields_iff.mpr ⟨rfl, rfl⟩⟩
  | cons name names ih =>
    obtain ⟨hnew, hnodup⟩ := List.nodup_cons.mp hnodup
    have hhead := hsites name List.mem_cons_self
    have hlength : (evidence.sites name).length = evidence.alternatives :=
      hhead.length_eq.symm.trans hcount.symm
    have hsome : evidence.sites name ≠ [] := by
      intro hnil
      rw [hnil, List.length_nil, hcount] at hlength
      exact hnonempty (List.length_eq_zero_iff.mp hlength.symm)
    have hsitesKnown : ∀ site ∈ evidence.sites name, site.ascription = none →
        pool.contains site.inferred := fun site hsite => hfindings site (List.mem_filter.mp hsite).1
    obtain ⟨type, origin, middle, hname⟩ := (hreconciles name List.mem_cons_self).exists_reconcileName
      hbase hpool hkept hknown hsome hsitesKnown hhead
    obtain ⟨hmiddle, hstep⟩ :=
      (BindingSite.reconcileName_grows hpool hsome hsitesKnown hname).1.keeps hpool
    have hinsert : environment.insert? ⟨name, type, origin⟩ =
        some ⟨environment.entries ++ [⟨name, type, origin⟩]⟩ := by
      refine if_neg fun hcontains => hfresh name List.mem_cons_self ?_
      simpa [Environment.contains, Environment.names] using hcontains
    have hfreshRest : ∀ other ∈ names, other ∉
        (⟨environment.entries ++ [⟨name, type, origin⟩]⟩ : Environment).names := by
      intro other hmem
      rw [Environment.names_of_insert? hinsert, List.mem_append, List.mem_singleton, not_or]
      refine ⟨hfresh other (List.mem_cons_of_mem name hmem), ?_⟩
      rintro rfl
      exact hnew hmem
    obtain ⟨result, later, hrest⟩ := ih hmiddle (hkept.trans hstep) (hfindings.mono hstep)
      (fun other hmem => (hsites other (List.mem_cons_of_mem name hmem)).imp fun _ _ h => h.mono hstep)
      (fun other hmem => hreconciles other (List.mem_cons_of_mem name hmem)) hnodup hfreshRest
    exact ⟨result, later, reconcileNames_cons_yields_iff.mpr
      ⟨hlength, type, origin, middle, hname, _, hinsert, hrest⟩⟩

theorem exists_collectsParts {typeOf : Step → Option Ty} {parts : List (Step × Pattern)}
    (hpool : pool.WellFormed) (hkept : base.KeptBy pool)
    (hknown : ∀ step type, typeOf step = some type → base.contains type)
    (hparts : ∀ part ∈ parts, ∃ type, typeOf part.1 = some type ∧ ∀ start, start.WellFormed →
      base.KeptBy start → ∃ found next,
        (part.2.collect options context type (path ++ [part.1.clip])).Yields start found next) :
    ∃ findings later, CollectsParts options context path typeOf pool parts findings later := by
  induction parts generalizing pool with
  | nil => exact ⟨{}, pool, .nil pool⟩
  | cons part rest ih =>
    obtain ⟨type, htype, hcollects⟩ := hparts part List.mem_cons_self
    obtain ⟨first, middle, hfirst⟩ := hcollects pool hpool hkept
    obtain ⟨hmiddle, hstep⟩ := (part.2.collect_grows _ _ _ _ _ _ hpool
      (hkept.contains (hknown part.1 type htype)) hfirst).1.keeps hpool
    obtain ⟨others, later, hothers⟩ := ih hmiddle (hkept.trans hstep) fun other hmem =>
      hparts other (List.mem_cons_of_mem part hmem)
    exact ⟨first ++ others, later, .cons htype hfirst hothers⟩

theorem exists_collectAlternatives {index : Nat} (hpool : pool.WellFormed) (hkept : base.KeptBy pool)
    (hknown : base.contains expected)
    (hpatterns : ∀ pattern ∈ alternatives, ∀ alternative start, start.WellFormed →
      base.KeptBy start → ∃ found next,
        (pattern.collect options ⟨certificate, alternative⟩ expected path).Yields start found next) :
    ∃ findings later, (Pattern.collectAlternatives options alternatives certificate index expected
      path).Yields pool findings later := by
  induction alternatives generalizing pool index with
  | nil => exact ⟨{}, pool, Pattern.collectAlternatives_nil_yields_iff.mpr ⟨rfl, rfl⟩⟩
  | cons pattern rest ih =>
    obtain ⟨first, middle, hfirst⟩ := hpatterns pattern List.mem_cons_self index pool hpool hkept
    obtain ⟨hmiddle, hstep⟩ := (pattern.collect_grows _ _ _ _ _ _ hpool (hkept.contains hknown)
      hfirst).1.keeps hpool
    obtain ⟨others, later, hothers⟩ := ih hmiddle (hkept.trans hstep) fun other hmem =>
      hpatterns other (List.mem_cons_of_mem pattern hmem)
    exact ⟨first ++ others, later, Pattern.collectAlternatives_cons_yields_iff.mpr
      ⟨first, middle, hfirst, others, hothers, rfl⟩⟩

/-- Alternatives that agree compile, if each can be collected from and the types of
    their names can be brought together. -/
theorem exists_compilesTo_of_alternatives (hbase : base.WellFormed) (hpool : pool.WellFormed)
    (hkept : base.KeptBy pool) (hknown : base.contains expected) (hnonempty : alternatives ≠ [])
    (hagree : Pattern.Agree alternatives)
    (hdistinct : ∀ pattern ∈ alternatives, ∀ node ∈ pattern.nodes, node.StepsDistinct)
    (hlies : ∀ pattern ∈ alternatives, pattern.LiesOver base expected)
    (hreconciles : ∀ name, Pattern.Reconciles base expected (.or alternatives span) name)
    (hpatterns : ∀ pattern ∈ alternatives, ∀ context start, start.WellFormed → base.KeptBy start →
      context.certificate.Lists path pattern →
        ∃ found next, (pattern.collect options context expected path).Yields start found next) :
    ∃ certificate findings middle compiled later, CompilesTo options alternatives expected path span
      pool certificate findings middle compiled later := by
  obtain ⟨certificate, hcertify⟩ : ∃ certificate,
      Pattern.certify alternatives path span = .ok certificate :=
    Pattern.exists_certify hagree hdistinct (fun pattern hmem => (hlies pattern hmem).agree)
      fun pattern hmem => (hlies pattern hmem).fits
  have hnames := Pattern.names_of_certify hcertify
  have hlists : ∀ pattern ∈ alternatives, certificate.Lists path pattern :=
    fun pattern hmem => Pattern.lists_of_certify hcertify hmem
  obtain ⟨findings, middle, hcollects⟩ : ∃ findings middle, (Pattern.collectAlternatives options
      alternatives certificate 0 expected path).Yields pool findings middle :=
    exists_collectAlternatives hpool hkept hknown fun pattern hmem alternative start hstart hkept' =>
      hpatterns pattern hmem ⟨certificate, alternative⟩ start hstart hkept' (hlists pattern hmem)
  obtain ⟨hgrows, hfindings⟩ := collectAlternatives_grows hpool (hkept.contains hknown) hcollects
  obtain ⟨hmiddle, hstep⟩ := hgrows.keeps hpool
  have hsites := Pattern.certified_sites hpool hkept hknown hcertify hcollects
    fun pattern hmem context start found next hstart hkept' hyields =>
      pattern.collect_collected context expected path start found next hbase hstart hkept' hknown
        (hlies pattern hmem).agree (hagree.unique pattern hmem) hyields
  have hunique : certificate.names.Nodup := by
    rw [hnames]
    exact hagree.nodup_first
  obtain ⟨environment, later, hreconciled⟩ : ∃ environment later,
      ((certificate.evidence alternatives.length findings).reconcile span).Yields middle environment
        later :=
    Evidence.exists_reconcileNames hbase hmiddle (hkept.trans hstep) hknown hnonempty rfl hfindings
      hsites (fun name _ => hreconciles name) hunique fun _ _ => List.not_mem_nil
  have henvironment : environment.names = (Pattern.bindingsFirst alternatives).map Prod.fst :=
    (Evidence.names_of_reconcileNames hreconciled).trans hnames
  obtain ⟨procedure, hemitted⟩ : ∃ procedure, (certificate.evidence alternatives.length findings).emit
      options environment path alternatives = .ok procedure := by
    refine Evidence.exists_emit hcollects fun pattern hmem name hname => ?_
    rw [henvironment]
    exact (hagree.names_perm hmem).mem_iff.mp hname
  exact ⟨certificate, findings, middle, ⟨procedure, environment⟩, later, hcertify, hcollects,
    hreconciled, hemitted⟩

namespace Pattern

/-- A pattern that lies over a type can be collected from, where its names are
    expected. -/
theorem exists_collect (pattern : Pattern) (context : CollectContext) (expected : Ty) (path : Path)
    (pool : Pool) (hbase : base.WellFormed) (hpool : pool.WellFormed) (hkept : base.KeptBy pool)
    (hknown : base.contains expected) (hdistinct : ∀ node ∈ pattern.nodes, node.StepsDistinct)
    (hlies : pattern.LiesOver base expected) (hlists : context.certificate.Lists path pattern) :
    ∃ findings later, (pattern.collect options context expected path).Yields pool findings later := by
  induction pattern using inductParts generalizing context expected path pool with
  | wildcard span => exact ⟨_, _, collect_wildcard_yields_iff.mpr ⟨rfl, rfl⟩⟩
  | literal value span =>
    have hfits : pool.literalFits expected value := by
      rw [hkept.literalFits_eq hknown]
      exact hlies.fits _ _ (.self _ _)
    exact ⟨_, _, collect_literal_yields_iff.mpr ⟨hfits, rfl, rfl⟩⟩
  | bind name ascription span =>
    have hplace : context.certificate.path? name = some path := by
      have hlisted := hlists (name, path ++ []) List.mem_cons_self
      rwa [List.append_nil] at hlisted
    exact ⟨_, _, collect_bind_yields_iff.mpr
      ⟨_, CollectContext.site_eq_ok_iff.mpr ⟨hplace, rfl⟩, rfl, rfl⟩⟩
  | branch pattern hbranch ih =>
    have hfits := hlies.fits _ _ (.self _ _)
    obtain ⟨findings, later, hcollects⟩ : ∃ findings later, CollectsParts options context path
        (pattern.partType? base expected) pool pattern.parts findings later := by
      refine exists_collectsParts hpool hkept (fun step type htype => partType?_known hbase htype)
        fun part hmem => ?_
      obtain ⟨type, htype⟩ := exists_partType? hfits hmem
      refine ⟨type, htype, fun start hstart hkept' => ?_⟩
      exact ih part hmem context type _ start hstart hkept' (partType?_known hbase htype)
        (forall_nodes_of_part hdistinct hmem) (hlies.part hbranch hmem htype) (hlists.part hbranch hmem)
    rw [← funext (partType?_eq hkept hknown pattern)] at hcollects
    exact ⟨findings, later, (collect_branch_yields_iff hbranch).mpr
      ⟨(fits_iff hkept hknown pattern).mpr hfits, hcollects⟩⟩
  | or alternatives span ih =>
    have hinner : ∀ choice ∈ alternatives, ∀ node ∈ choice.nodes, node.StepsDistinct :=
      stepsDistinct_or_iff.mp hdistinct
    have hmany : 2 ≤ alternatives.length := hlies.plural _ (self_mem_nodes _) rfl
    have hnonempty : alternatives ≠ [] := List.ne_nil_of_length_pos (by omega)
    obtain ⟨certificate, inner, middle, compiled, later, hcompiles⟩ : ∃ certificate inner middle
        compiled later, CompilesTo options alternatives expected path span pool certificate inner
          middle compiled later := by
      refine exists_compilesTo_of_alternatives hbase hpool hkept hknown hnonempty
        (hlies.agree _ (self_mem_nodes _)) hinner (fun choice hmem => hlies.choice hmem)
        (hlies.choicesReconcile _ _ (.self _ _) rfl) ?_
      intro choice hmem context start hstart hkept' hlists
      exact ih choice hmem context expected path start hstart hkept' hknown (hinner choice hmem)
        (hlies.choice hmem) hlists
    obtain ⟨sites, hsites⟩ := hcompiles.exists_nestedSites hinner hlists
    exact ⟨_, later, collect_or_yields_iff.mpr
      ⟨hmany, certificate, inner, middle, compiled, sites, hcompiles, hsites, rfl⟩⟩

end Pattern

end OrPattern
