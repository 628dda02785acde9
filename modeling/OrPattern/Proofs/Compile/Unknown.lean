import OrPattern.Proofs.Compile.Accepted

namespace OrPattern

open Attempt

variable {options : Options} {pool later : Pool} {context : CollectContext} {expected : Ty}
  {path : Path} {findings : Findings} {alternatives : List Pattern} {pattern : Pattern} {span : Span}
  {certificate : Certificate}

namespace Attempt

variable {α β : Type}

/-- The step neither looks at the pool nor adds to it. -/
def IgnoresPool (attempt : Attempt α) : Prop := ∃ result, ∀ pool, attempt.runOn pool = (result, pool)

namespace IgnoresPool

theorem pure (value : α) : IgnoresPool (pure value : Attempt α) := ⟨.ok value, fun _ => rfl⟩

theorem throw (rejection : Rejection) : IgnoresPool (throw rejection : Attempt α) :=
  ⟨.error rejection, fun _ => rfl⟩

theorem liftM (attempt : Except Rejection α) : IgnoresPool (liftM attempt : Attempt α) :=
  ⟨attempt, fun _ => by cases attempt <;> rfl⟩

theorem bind {attempt : Attempt α} {next : α → Attempt β} (hattempt : attempt.IgnoresPool)
    (hnext : ∀ pool value later, attempt.Yields pool value later → (next value).IgnoresPool) :
    (attempt >>= next).IgnoresPool := by
  obtain ⟨result, hresult⟩ := hattempt
  cases result with
  | error rejection => exact ⟨.error rejection, fun pool => by rw [runOn_bind, hresult]⟩
  | ok value =>
    obtain ⟨last, hlast⟩ := hnext .initial value .initial (hresult .initial)
    exact ⟨last, fun pool => by rw [runOn_bind, hresult]; exact hlast pool⟩

/-- A look at the pool that does not depend on what is seen. -/
theorem get_bind {next : Pool → Attempt α} {same : Attempt α} (hsame : ∀ pool, next pool = same)
    (hnext : same.IgnoresPool) : (get >>= next).IgnoresPool := by
  obtain ⟨result, hresult⟩ := hnext
  refine ⟨result, fun pool => ?_⟩
  rw [runOn_bind]
  have hrun : runOn get pool = (.ok pool, pool) := rfl
  rw [hrun]
  exact (congrArg (runOn · pool) (hsame pool)).trans (hresult pool)

theorem modifyGet_bind {change : Pool → α × Pool} {next : α → Attempt β} {value : α}
    (hchange : ∀ pool, change pool = (value, pool)) (hnext : (next value).IgnoresPool) :
    (modifyGet change >>= next).IgnoresPool := by
  obtain ⟨result, hresult⟩ := hnext
  refine ⟨result, fun pool => ?_⟩
  rw [runOn_bind]
  have hrun : runOn (modifyGet change) pool = (.ok (change pool).1, (change pool).2) := rfl
  rw [hrun, hchange]
  exact hresult pool

/-- What such a step yields on one pool it yields on every other. -/
theorem yields {attempt : Attempt α} {value : α} (hattempt : attempt.IgnoresPool)
    (hyields : attempt.Yields pool value later) (other : Pool) : attempt.Yields other value other := by
  obtain ⟨result, hresult⟩ := hattempt
  obtain rfl : result = .ok value := congrArg Prod.fst ((hresult pool).symm.trans hyields)
  exact hresult other

end IgnoresPool

end Attempt

/-- Types that are all one join at that type. -/
theorem Pool.joinAll_of_all_eq {type : Ty} {types : List Ty} (hsame : ∀ other ∈ types, other = type)
    (hnonempty : types ≠ []) (pool : Pool) : pool.joinAll types = (some type, pool) := by
  obtain ⟨first, rest, rfl⟩ := List.exists_cons_of_ne_nil hnonempty
  rw [List.forall_mem_cons] at hsame
  obtain ⟨rfl, hrest⟩ := hsame
  clear hnonempty
  rw [joinAll]
  induction rest with
  | nil => rfl
  | cons other rest ih =>
    rw [List.forall_mem_cons] at hrest
    obtain ⟨rfl, hrest⟩ := hrest
    rw [joinOnto, join_of_isSubtype (isSubtype_self pool other)]
    exact ih hrest

/-- The sites lie at places of one type and state none. -/
def Findings.Uniform (expected : Ty) (findings : Findings) : Prop :=
  ∀ site ∈ findings.sites, site.inferred = expected ∧ site.ascription = none

namespace BindingSite

variable {name : Name} {sites : List BindingSite}

/-- Sites at places of one type that state none need no pool to find their type. -/
theorem ignoresPool_reconcileName
    (hsites : ∀ site ∈ sites, site.inferred = expected ∧ site.ascription = none) :
    (reconcileName name span sites).IgnoresPool := by
  have hadmitted : ∀ pool, findRefused? pool sites = none := fun pool => by
    rw [findRefused?_eq_none_iff]
    intro site hmem ascribed hascribed
    rw [(hsites site hmem).2] at hascribed
    cases hascribed
  have hunascribed : sites.filter (fun site => site.ascription.isSome) = [] := by
    refine List.filter_eq_nil_iff.mpr fun site hmem => ?_
    rw [(hsites site hmem).2]
    exact Bool.false_ne_true
  unfold reconcileName
  refine .get_bind (fun pool => by rw [hadmitted pool]) ?_
  dsimp only
  rw [hunascribed]
  cases sites with
  | nil => exact .modifyGet_bind (fun pool => rfl) (.throw _)
  | cons site rest =>
    have hsame : ∀ type ∈ (site :: rest).map inferred, type = expected := by
      intro type htype
      obtain ⟨other, hmem, rfl⟩ := List.mem_map.mp htype
      exact (hsites other hmem).1
    exact .modifyGet_bind (Pool.joinAll_of_all_eq hsame (List.cons_ne_nil _ _)) (.pure _)

/-- At places of a type that no ascription admits a name gets that type, and no
    site of it has an ascription. -/
theorem reconcileName_of_unadmitted {type : Ty} {origin : TypeOrigin}
    (hplaces : ∀ site ∈ sites, site.inferred = expected)
    (hrefused : ∀ site ∈ sites, ∀ ascribed ∈ site.ascription, ¬ pool.isSubtype expected ascribed)
    (hyields : (reconcileName name span sites).Yields pool (type, origin) later) :
    pool = later ∧ type = expected ∧ origin = .inferred ∧ ∀ site ∈ sites, site.ascription = none := by
  obtain ⟨hadmitted, hcases⟩ := reconcileName_yields hyields
  have hnone : ∀ site ∈ sites, site.ascription = none := by
    intro site hmem
    cases hascription : site.ascription with
    | none => rfl
    | some ascribed =>
      have hbelow := hadmitted site hmem ascribed hascription
      rw [hplaces site hmem] at hbelow
      exact absurd hbelow (hrefused site hmem ascribed hascription)
  rcases hcases with ⟨-, hjoin, horigin⟩ | ⟨⟨upper, hmem, hupper⟩, -⟩
  · have hnonempty : sites.map inferred ≠ [] := by
      intro hnil
      rw [hnil] at hjoin
      cases hjoin
    have hsame : ∀ other ∈ sites.map inferred, other = expected := by
      intro other hother
      obtain ⟨site, hmem, rfl⟩ := List.mem_map.mp hother
      exact hplaces site hmem
    rw [Pool.joinAll_of_all_eq hsame hnonempty] at hjoin
    obtain ⟨htype, hlater⟩ := Prod.mk.inj hjoin
    exact ⟨hlater, (Option.some.inj htype).symm, horigin, hnone⟩
  · rw [hnone upper hmem] at hupper
    cases hupper

end BindingSite

/-- The entries have one type, which no ascription settled. -/
def Environment.Uniform (expected : Ty) (environment : Environment) : Prop :=
  ∀ entry ∈ environment.entries, entry.type = expected ∧ entry.origin = .inferred

namespace Evidence

variable {evidence : Evidence} {names : List Name} {environment result : Environment}

theorem ignoresPool_reconcileNames (huniform : evidence.findings.Uniform expected) :
    (evidence.reconcileNames span names environment).IgnoresPool := by
  induction names generalizing environment with
  | nil => exact .pure environment
  | cons name names ih =>
    rw [reconcileNames]
    split
    · exact .throw _
    · refine .bind (BindingSite.ignoresPool_reconcileName fun site hmem =>
        huniform site (List.mem_of_mem_filter hmem)) fun _ found _ _ => ?_
      obtain ⟨type, origin⟩ := found
      dsimp only
      split
      · exact ih
      · exact .throw _

theorem reconcileNames_of_unadmitted
    (hplaces : ∀ site ∈ evidence.findings.sites, site.inferred = expected)
    (hrefused : ∀ site ∈ evidence.findings.sites, ∀ ascribed ∈ site.ascription,
      ¬ pool.isSubtype expected ascribed) (huniform : environment.Uniform expected)
    (hyields : (evidence.reconcileNames span names environment).Yields pool result later) :
    pool = later ∧ result.Uniform expected ∧
      ∀ name ∈ names, ∀ site ∈ evidence.sites name, site.ascription = none := by
  induction names generalizing environment with
  | nil =>
    obtain ⟨rfl, rfl⟩ := reconcileNames_nil_yields_iff.mp hyields
    exact ⟨rfl, huniform, nofun⟩
  | cons name names ih =>
    obtain ⟨-, type, origin, middle, hname, next, hinsert, hrest⟩ :=
      reconcileNames_cons_yields_iff.mp hyields
    obtain ⟨rfl, rfl, rfl, hnone⟩ := BindingSite.reconcileName_of_unadmitted
      (fun site hmem => hplaces site (List.mem_of_mem_filter hmem))
      (fun site hmem => hrefused site (List.mem_of_mem_filter hmem)) hname
    have hnext : next.Uniform type := by
      intro entry hmem
      rw [Environment.entries_of_insert? hinsert] at hmem
      rcases List.mem_append.mp hmem with hold | hnew
      · exact huniform entry hold
      · rw [List.mem_singleton.mp hnew]
        exact ⟨rfl, rfl⟩
    obtain ⟨hpool, hresult, hothers⟩ := ih hnext hrest
    exact ⟨hpool, hresult, List.forall_mem_cons.mpr ⟨hnone, hothers⟩⟩

end Evidence

theorem Findings.Uniform.append {others : Findings} (hfindings : findings.Uniform expected)
    (hothers : others.Uniform expected) : (findings ++ others).Uniform expected := by
  intro site hmem
  rcases List.mem_append.mp hmem with hfirst | hrest
  · exact hfindings site hfirst
  · exact hothers site hrest

/-- The sites of a nested or-pattern are as uniform as its environment. -/
theorem CollectContext.uniform_nestedSites {procedure : Procedure} {environment : Environment}
    {sites : List BindingSite} {nested : List NestedPattern}
    (huniform : environment.Uniform expected)
    (hsites : context.nestedSites procedure span environment.entries = .ok sites) :
    (⟨sites, nested⟩ : Findings).Uniform expected := by
  intro site hmem
  obtain ⟨entry, hentry, place, -, -, rfl⟩ := exists_of_forall₂ (nestedSites_eq_ok_iff.mp hsites) hmem
  obtain ⟨htype, horigin⟩ := huniform entry hentry
  exact ⟨htype, by simp [EnvironmentEntry.ascription, horigin]⟩

namespace Pattern

/-- The node looks at no component of a value and states no type. -/
def IsBare : Pattern → Prop
  | wildcard _ | bind _ none _ | or .. => True
  | _ => False

/-- The pattern is made of wildcards, bindings without ascription and or-patterns
    alone. -/
def Bare (pattern : Pattern) : Prop := ∀ node ∈ pattern.nodes, node.IsBare

theorem bare_or_iff : (or alternatives span).Bare ↔ ∀ choice ∈ alternatives, choice.Bare := by
  constructor
  · exact fun hbare choice hmem node hnode => hbare node (mem_nodes_of_choice hmem hnode)
  · intro hchoices node hnode
    rcases mem_nodes_or_iff.mp hnode with rfl | ⟨choice, hmem, hnode⟩
    · exact trivial
    · exact hchoices choice hmem node hnode

theorem bare_iff_alternatives : pattern.Bare ↔ ∀ choice ∈ pattern.alternatives, choice.Bare := by
  cases pattern with
  | or alternatives span => exact bare_or_iff
  | wildcard | bind | literal | variant | tuple | record => simp [alternatives]

theorem Bare.not_branch (hbare : pattern.Bare) (hbranch : pattern.isBranch) : False := by
  have hself := hbare _ (self_mem_nodes _)
  cases pattern with
  | variant | tuple | record => exact hself
  | wildcard | bind | literal | or => cases hbranch

/-- Collecting from the pattern needs no pool and finds uniform sites. -/
def CollectsUniformly (options : Options) (expected : Ty) (path : Path) (pattern : Pattern) : Prop :=
  ∀ context, (pattern.collect options context expected path).IgnoresPool ∧
    ∀ pool findings later, (pattern.collect options context expected path).Yields pool findings later →
      findings.Uniform expected

theorem ignoresPool_collectAlternatives {index : Nat}
    (halternatives : ∀ choice ∈ alternatives, choice.CollectsUniformly options expected path) :
    (collectAlternatives options alternatives certificate index expected path).IgnoresPool := by
  induction alternatives generalizing index with
  | nil =>
    simp only [collectAlternatives]
    exact .pure _
  | cons choice rest ih =>
    rw [List.forall_mem_cons] at halternatives
    simp only [collectAlternatives]
    exact (halternatives.1 _).1.bind fun _ _ _ _ =>
      (ih halternatives.2).bind fun _ _ _ _ => .pure _

theorem uniform_collectAlternatives {index : Nat}
    (halternatives : ∀ choice ∈ alternatives, choice.CollectsUniformly options expected path)
    (hcollects : (collectAlternatives options alternatives certificate index expected path).Yields
      pool findings later) : findings.Uniform expected :=
  collectAlternatives_fold (R := fun _ found _ => found.Uniform expected) hcollects (fun _ => nofun)
    (fun hfirst hothers => hfirst.append hothers)
    fun _ choice start found next hchoice hyields =>
      (halternatives choice (List.mem_of_getElem? hchoice) _).2 start found next hyields

theorem ignoresPool_compileWith
    (halternatives : ∀ choice ∈ alternatives, choice.CollectsUniformly options expected path) :
    (compileWith options alternatives path span fun certificate =>
      collectAlternatives options alternatives certificate 0 expected path).IgnoresPool := by
  unfold compileWith
  refine Attempt.IgnoresPool.bind (.liftM _) fun _ certificate _ _ =>
    (ignoresPool_collectAlternatives halternatives).bind fun _ findings _ hcollects => ?_
  exact Attempt.IgnoresPool.bind (Evidence.ignoresPool_reconcileNames
    (uniform_collectAlternatives halternatives hcollects)) fun _ _ _ _ =>
      Attempt.IgnoresPool.bind (.liftM _) fun _ _ _ _ => .pure _

theorem uniform_compileWith {compiled : Compiled}
    (halternatives : ∀ choice ∈ alternatives, choice.CollectsUniformly options expected path)
    (hcompile : (compileWith options alternatives path span fun certificate =>
      collectAlternatives options alternatives certificate 0 expected path).Yields pool compiled
        later) : compiled.environment.Uniform expected := by
  obtain ⟨certificate, findings, middle, hcompiles⟩ := compileWith_yields_iff.mp hcompile
  have huniform := uniform_collectAlternatives halternatives hcompiles.collected
  refine (Evidence.reconcileNames_of_unadmitted (fun site hmem => (huniform site hmem).1)
    (fun site hmem ascribed hascribed => ?_) (fun _ hmem => absurd hmem List.not_mem_nil)
    hcompiles.reconciled).2.1
  rw [(huniform site hmem).2] at hascribed
  cases hascribed

theorem ignoresPool_compileOrWith {collect : Certificate → Attempt Findings}
    (hcompile : (compileWith options alternatives path span collect).IgnoresPool) :
    (compileOrWith options alternatives path span collect).IgnoresPool := by
  unfold compileOrWith
  split
  · exact .throw _
  · exact hcompile

/-- A bare pattern can be laid over a type that no pool holds. -/
theorem Bare.collectsUniformly (hbare : pattern.Bare) :
    pattern.CollectsUniformly options expected path := by
  intro context
  induction pattern using inductParts generalizing context with
  | wildcard span =>
    refine ⟨.pure _, fun pool findings later hyields => ?_⟩
    obtain ⟨rfl, -⟩ := collect_wildcard_yields_iff.mp hyields
    exact fun _ => nofun
  | bind name ascription span =>
    cases ascription with
    | some ascribed => exact (hbare _ (self_mem_nodes _)).elim
    | none =>
      refine ⟨?_, fun pool findings later hyields => ?_⟩
      · simp only [collect]
        exact Attempt.IgnoresPool.bind (.liftM _) fun _ _ _ _ => .pure _
      · obtain ⟨site, hsite, rfl, -⟩ := collect_bind_yields_iff.mp hyields
        obtain ⟨-, rfl⟩ := CollectContext.site_eq_ok_iff.mp hsite
        exact List.forall_mem_singleton.mpr ⟨rfl, rfl⟩
  | literal value span => exact (hbare _ (self_mem_nodes _)).elim
  | branch pattern hbranch ih => exact (hbare.not_branch hbranch).elim
  | or alternatives span ih =>
    have hchoices : ∀ choice ∈ alternatives, choice.CollectsUniformly options expected path :=
      fun choice hmem context => ih choice hmem (bare_or_iff.mp hbare choice hmem) context
    refine ⟨?_, fun pool findings later hyields => ?_⟩
    · simp only [collect]
      exact (ignoresPool_compileOrWith (ignoresPool_compileWith hchoices)).bind fun _ _ _ _ =>
        Attempt.IgnoresPool.bind (.liftM _) fun _ _ _ _ => .pure _
    · obtain ⟨-, certificate, inner, middle, compiled, sites, hcompiles, hsites, rfl⟩ :=
        collect_or_yields_iff.mp hyields
      exact CollectContext.uniform_nestedSites (uniform_compileWith hchoices
        (compileWith_yields_iff.mpr ⟨certificate, inner, middle, hcompiles⟩)) hsites

/-- A bare pattern is compiled without looking at the pool. -/
theorem Bare.ignoresPool_compile (hbare : pattern.Bare) :
    (pattern.compile options expected).IgnoresPool := by
  have halternatives : ∀ choice ∈ pattern.alternatives, choice.CollectsUniformly options expected [] :=
    fun choice hmem => (bare_iff_alternatives.mp hbare choice hmem).collectsUniformly
  cases pattern with
  | or alternatives span => exact ignoresPool_compileOrWith (ignoresPool_compileWith halternatives)
  | wildcard | bind | literal | variant | tuple | record => exact ignoresPool_compileWith halternatives

/-- What a bare pattern binds has the type that it is laid over. -/
theorem Bare.uniform_compile {compiled : Compiled} (hbare : pattern.Bare)
    (hcompile : (pattern.compile options expected).Yields pool compiled later) :
    compiled.environment.Uniform expected := by
  obtain ⟨-, hcompiles⟩ := compile_yields_iff.mp hcompile
  exact uniform_compileWith
    (fun choice hmem => (bare_iff_alternatives.mp hbare choice hmem).collectsUniformly)
    (compileWith_yields_iff.mpr hcompiles)

/-- A type that the pool does not hold is below no type that it holds. -/
theorem not_isSubtype_of_unknown {type : Ty} (hpool : pool.WellFormed)
    (hunknown : ¬ pool.contains expected) (hknown : pool.contains type) :
    ¬ pool.isSubtype expected type := by
  intro hbelow
  have hne : expected ≠ type := fun heq => hunknown (heq ▸ hknown)
  have hnever : expected ≠ .never := fun heq =>
    hunknown (heq ▸ Pool.contains_of_form? hpool.form?_never)
  obtain ⟨form, -, hform, -⟩ :=
    Pool.Below.exists_forms hpool (hpool.isSubtype_iff.mp hbelow) hne hnever
  exact hunknown (Pool.contains_of_form? hform)

/-- No node that demands a shape fits a type that the pool does not hold. -/
theorem not_fits_of_unknown {shape : ShapeClass} (hunknown : ¬ pool.contains expected)
    (hshape : pattern.shapeClass? = some shape) : ¬ pattern.Fits pool expected := by
  intro hfits
  obtain ⟨form, hform, -⟩ := suits_of_fits hfits hshape
  exact hunknown (Pool.contains_of_form? hform)

/-- What is collected from patterns over a type that the pool does not hold: the
    sites lie at places of that type and bind certified names, their ascriptions
    are types of the pool, and without any ascription the patterns are bare. -/
structure CollectedUnknown (pool : Pool) (expected : Ty) (names : List Name) (patterns : List Pattern)
    (findings : Findings) : Prop where
  inferred : ∀ site ∈ findings.sites, site.inferred = expected
  known : ∀ site ∈ findings.sites, ∀ ascribed ∈ site.ascription, pool.contains ascribed
  certified : ∀ site ∈ findings.sites, site.name ∈ names
  bare : (∀ site ∈ findings.sites, site.ascription = none) → ∀ pattern ∈ patterns, pattern.Bare

namespace CollectedUnknown

variable {names : List Name} {patterns others : List Pattern} {first rest : Findings}

theorem append (hfirst : CollectedUnknown pool expected names patterns first)
    (hrest : CollectedUnknown pool expected names others rest) :
    CollectedUnknown pool expected names (patterns ++ others) (first ++ rest) where
  inferred := List.forall_mem_append.mpr ⟨hfirst.inferred, hrest.inferred⟩
  known := List.forall_mem_append.mpr ⟨hfirst.known, hrest.known⟩
  certified := List.forall_mem_append.mpr ⟨hfirst.certified, hrest.certified⟩
  bare hnone := by
    obtain ⟨hfirstNone, hrestNone⟩ := List.forall_mem_append.mp hnone
    exact List.forall_mem_append.mpr ⟨hfirst.bare hfirstNone, hrest.bare hrestNone⟩

theorem of_uniform (huniform : findings.Uniform expected)
    (hcertified : ∀ site ∈ findings.sites, site.name ∈ names)
    (hbare : ∀ pattern ∈ patterns, pattern.Bare) :
    CollectedUnknown pool expected names patterns findings where
  inferred site hmem := (huniform site hmem).1
  known site hmem ascribed hascribed := by
    rw [(huniform site hmem).2] at hascribed
    cases hascribed
  certified := hcertified
  bare _ := hbare

end CollectedUnknown

theorem collectAlternatives_unknown {index : Nat}
    (halternatives : ∀ choice ∈ alternatives, ∀ context findings later,
      (choice.collect options context expected path).Yields pool findings later →
        pool = later ∧ CollectedUnknown pool expected context.certificate.names [choice] findings)
    (hcollects : (collectAlternatives options alternatives certificate index expected path).Yields
      pool findings later) :
    pool = later ∧ CollectedUnknown pool expected certificate.names alternatives findings := by
  induction alternatives generalizing index findings with
  | nil =>
    obtain ⟨rfl, rfl⟩ := collectAlternatives_nil_yields_iff.mp hcollects
    exact ⟨rfl, .of_uniform (fun _ => nofun) (fun _ => nofun) (fun _ => nofun)⟩
  | cons choice rest ih =>
    rw [List.forall_mem_cons] at halternatives
    obtain ⟨first, middle, hfirst, others, hothers, rfl⟩ :=
      collectAlternatives_cons_yields_iff.mp hcollects
    obtain ⟨rfl, hchoice⟩ := halternatives.1 _ first middle hfirst
    obtain ⟨hpool, hrest⟩ := ih halternatives.2 hothers
    exact ⟨hpool, hchoice.append hrest⟩

/-- Over a type that the pool does not hold alternatives compile only if they are
    bare, and the pool is left alone. -/
theorem bare_of_compilesTo {compiled : Compiled} {middle : Pool} (hpool : pool.WellFormed)
    (hunknown : ¬ pool.contains expected)
    (hcompiles : CompilesTo options alternatives expected path span pool certificate findings middle
      compiled later)
    (halternatives : ∀ choice ∈ alternatives, ∀ context findings later,
      (choice.collect options context expected path).Yields pool findings later →
        pool = later ∧ CollectedUnknown pool expected context.certificate.names [choice] findings) :
    pool = later ∧ compiled.environment.Uniform expected ∧ ∀ choice ∈ alternatives, choice.Bare := by
  obtain ⟨rfl, hcollected⟩ := collectAlternatives_unknown halternatives hcompiles.collected
  obtain ⟨hlater, huniform, hnone⟩ := Evidence.reconcileNames_of_unadmitted hcollected.inferred
    (fun site hmem ascribed hascribed => not_isSubtype_of_unknown hpool hunknown
      (hcollected.known site hmem ascribed hascribed))
    (fun _ hmem => absurd hmem List.not_mem_nil) hcompiles.reconciled
  refine ⟨hlater, huniform, hcollected.bare fun site hmem => ?_⟩
  exact hnone site.name (hcollected.certified site hmem) site
    (List.mem_filter.mpr ⟨hmem, decide_eq_true rfl⟩)

/-- Collecting over a type that the pool does not hold. -/
theorem collect_unknown (hpool : pool.WellFormed) (hunknown : ¬ pool.contains expected)
    (hascribed : pattern.AscriptionsKnown pool)
    (hcollect : (pattern.collect options context expected path).Yields pool findings later) :
    pool = later ∧ CollectedUnknown pool expected context.certificate.names [pattern] findings := by
  induction pattern using inductParts generalizing context findings later with
  | wildcard span =>
    obtain ⟨rfl, rfl⟩ := collect_wildcard_yields_iff.mp hcollect
    refine ⟨rfl, .of_uniform (fun _ => nofun) (fun _ => nofun) ?_⟩
    exact List.forall_mem_singleton.mpr (List.forall_mem_singleton.mpr trivial)
  | bind name ascription span =>
    obtain ⟨site, hsite, rfl, rfl⟩ := collect_bind_yields_iff.mp hcollect
    obtain ⟨hplace, rfl⟩ := CollectContext.site_eq_ok_iff.mp hsite
    have hlisted : name ∈ context.certificate.names :=
      lookup_isSome_iff_mem.mp (Option.isSome_of_eq_some hplace)
    refine ⟨rfl, List.forall_mem_singleton.mpr rfl, List.forall_mem_singleton.mpr ?_,
      List.forall_mem_singleton.mpr hlisted, fun hnone => ?_⟩
    · rintro ascribed rfl
      exact hascribed name ascribed span (self_mem_nodes _)
    · obtain rfl : ascription = none := hnone _ List.mem_cons_self
      exact List.forall_mem_singleton.mpr (List.forall_mem_singleton.mpr trivial)
  | literal value span =>
    obtain ⟨hfits, -⟩ := collect_literal_yields_iff.mp hcollect
    have hfits : (literal value span).Fits pool expected := hfits
    exact absurd hfits (not_fits_of_unknown hunknown rfl)
  | branch pattern hbranch ih =>
    obtain ⟨hfits, -⟩ := (collect_branch_yields_iff hbranch).mp hcollect
    cases pattern with
    | variant | tuple | record => exact absurd hfits (not_fits_of_unknown hunknown rfl)
    | wildcard | bind | literal | or => cases hbranch
  | or alternatives span ih =>
    obtain ⟨-, certificate, inner, middle, compiled, sites, hcompiles, hsites, rfl⟩ :=
      collect_or_yields_iff.mp hcollect
    obtain ⟨hlater, huniform, hbare⟩ := bare_of_compilesTo hpool hunknown hcompiles
      fun choice hmem context findings later hyields =>
        ih choice hmem (hascribed.of_subset fun node hnode => mem_nodes_of_choice hmem hnode) hyields
    refine ⟨hlater, .of_uniform (CollectContext.uniform_nestedSites huniform hsites) ?_
      (List.forall_mem_singleton.mpr (bare_or_iff.mpr hbare))⟩
    intro site hmem
    obtain ⟨entry, -, place, -, hplace, rfl⟩ :=
      exists_of_forall₂ (CollectContext.nestedSites_eq_ok_iff.mp hsites) hmem
    exact lookup_isSome_iff_mem.mp (Option.isSome_of_eq_some hplace)

/-- Only bare patterns compile for a type that the pool does not hold. -/
theorem bare_of_compile {compiled : Compiled} (hpool : pool.WellFormed)
    (hunknown : ¬ pool.contains expected) (hascribed : pattern.AscriptionsKnown pool)
    (hcompile : (pattern.compile options expected).Yields pool compiled later) : pattern.Bare := by
  obtain ⟨-, certificate, findings, middle, hcompiles⟩ := compile_yields_iff.mp hcompile
  obtain ⟨-, -, hbare⟩ := bare_of_compilesTo hpool hunknown hcompiles
    fun choice hmem context findings later hyields => collect_unknown hpool hunknown
      (hascribed.of_subset fun node hnode => mem_nodes_of_alternative hmem hnode) hyields
  exact bare_iff_alternatives.mpr hbare

/-- The places of a bare pattern all have the type that it is laid over. -/
theorem Bare.of_bindsAt {name : Name} {ascription : Option Ty} {type : Ty} (hbare : pattern.Bare)
    (hbinds : BindsAt pool expected pattern name ascription type) :
    ascription = none ∧ type = expected := by
  induction pattern using inductParts with
  | wildcard span | literal value span =>
    obtain ⟨_, hreaches⟩ := hbinds
    rcases reaches_iff.mp hreaches with ⟨-, heq⟩ | ⟨part, hmem, -⟩ | ⟨choice, hmem, -⟩
    · cases heq
    · cases hmem
    · cases hmem
  | bind bound stated span =>
    obtain ⟨-, rfl, rfl⟩ := bindsAt_bind_iff.mp hbinds
    cases stated with
    | none => exact ⟨rfl, rfl⟩
    | some ascribed => exact (hbare _ (self_mem_nodes _)).elim
  | branch pattern hbranch ih => exact (hbare.not_branch hbranch).elim
  | or alternatives span ih =>
    obtain ⟨choice, hmem, hchoice⟩ := bindsAt_or_iff.mp hbinds
    exact ih choice hmem (bare_or_iff.mp hbare choice hmem) hchoice

/-- A bare pattern has a place for each of its names. -/
theorem Bare.bindsAt {name : Name} (hbare : pattern.Bare) (hname : name ∈ pattern.names) :
    BindsAt pool expected pattern name none expected := by
  induction pattern using inductParts with
  | wildcard span | literal value span => cases hname
  | bind bound stated span =>
    cases stated with
    | none =>
      obtain rfl : name = bound := List.mem_singleton.mp hname
      exact bindsAt_bind_iff.mpr ⟨rfl, rfl, rfl⟩
    | some ascribed => exact (hbare _ (self_mem_nodes _)).elim
  | branch pattern hbranch ih => exact (hbare.not_branch hbranch).elim
  | or alternatives span ih =>
    cases alternatives with
    | nil => cases hname
    | cons first rest =>
      exact bindsAt_or_iff.mpr ⟨first, List.mem_cons_self, ih first List.mem_cons_self
        (bare_or_iff.mp hbare first List.mem_cons_self) hname⟩

end Pattern

end OrPattern
