import OrPattern.Proofs.Compile.Collects
import OrPattern.Proofs.Compile.Reconcile
import OrPattern.Proofs.Join.All
import OrPattern.Proofs.Pattern.Typed

namespace OrPattern

open Attempt

variable {options : Options} {pool later : Pool}

/-- The types that were worked out, not stated, are known. -/
def Findings.Known (pool : Pool) (findings : Findings) : Prop :=
  ∀ site ∈ findings.sites, site.ascription = none → pool.contains site.inferred

def Environment.Known (pool : Pool) (environment : Environment) : Prop :=
  ∀ entry ∈ environment.entries, entry.origin = .inferred → pool.contains entry.type

namespace Findings

variable {findings others : Findings}

theorem known_empty (pool : Pool) : ({} : Findings).Known pool := nofun

theorem Known.mono (hkept : pool.KeptBy later) (hknown : findings.Known pool) :
    findings.Known later :=
  fun site hsite hnone => hkept.contains (hknown site hsite hnone)

theorem Known.append (hfindings : findings.Known pool) (hothers : others.Known pool) :
    (findings ++ others).Known pool := by
  intro site hsite
  exact (List.mem_append.mp hsite).elim (hfindings site) (hothers site)

end Findings

theorem Environment.Known.insert? {environment next : Environment} {entry : EnvironmentEntry}
    (hknown : environment.Known pool) (hkept : pool.KeptBy later)
    (hentry : entry.origin = .inferred → later.contains entry.type)
    (hinsert : environment.insert? entry = some next) : next.Known later := by
  intro other hmem horigin
  rw [Environment.entries_of_insert? hinsert] at hmem
  rcases List.mem_append.mp hmem with hold | hnew
  · exact hkept.contains (hknown other hold horigin)
  · cases List.mem_singleton.mp hnew
    exact hentry horigin

theorem BindingSite.reconcileName_grows {name : Name} {span : Span} {sites : List BindingSite}
    {type : Ty} {origin : TypeOrigin} (hpool : pool.WellFormed) (hsites : sites ≠ [])
    (hknown : ∀ site ∈ sites, site.ascription = none → pool.contains site.inferred)
    (hyields : (reconcileName name span sites).Yields pool (type, origin) later) :
    Pool.Grows pool later ∧ (origin = .inferred → later.contains type) := by
  obtain ⟨-, ⟨hnone, hjoin, -⟩ | ⟨-, -, rfl, rfl⟩⟩ := reconcileName_yields hyields
  · have htypes : ∀ type ∈ sites.map inferred, pool.contains type := by
      intro type hmem
      obtain ⟨site, hsite, rfl⟩ := List.mem_map.mp hmem
      exact hknown site hsite (hnone site hsite)
    have hjoins := hpool.joinsTo_joinAll (fun h => hsites (List.map_eq_nil_iff.mp h)) htypes
    have hgrows := (Pool.Grows.refl pool).joinAll hpool htypes
    rw [hjoin] at hjoins hgrows
    exact ⟨hgrows, fun _ => (hjoins.least rfl).1⟩
  · exact ⟨.refl pool, nofun⟩

/-- Finding the types of names adds types to the pool by joins only. -/
theorem Evidence.reconcileNames_grows {evidence : Evidence} {span : Span} {names : List Name}
    {environment result : Environment} (hpool : pool.WellFormed)
    (halternatives : evidence.alternatives ≠ 0) (hfindings : evidence.findings.Known pool)
    (henvironment : environment.Known pool)
    (hyields : (evidence.reconcileNames span names environment).Yields pool result later) :
    Pool.Grows pool later ∧ result.Known later := by
  induction names generalizing pool environment with
  | nil =>
    obtain ⟨rfl, rfl⟩ := reconcileNames_nil_yields_iff.mp hyields
    exact ⟨.refl pool, henvironment⟩
  | cons name names ih =>
    obtain ⟨hcount, type, origin, middle, hname, next, hinsert, hrest⟩ :=
      reconcileNames_cons_yields_iff.mp hyields
    have hsites : evidence.sites name ≠ [] := by
      intro hnil
      rw [hnil, List.length_nil] at hcount
      exact halternatives hcount.symm
    obtain ⟨hgrows, hknown⟩ := BindingSite.reconcileName_grows hpool hsites
      (fun site hsite => hfindings site (List.mem_filter.mp hsite).1) hname
    obtain ⟨hmiddle, hkept⟩ := hgrows.keeps hpool
    obtain ⟨hlast, hresult⟩ := ih hmiddle (hfindings.mono hkept)
      (henvironment.insert? hkept hknown hinsert) hrest
    exact ⟨hgrows.trans hlast, hresult⟩

variable {alternatives : List Pattern} {expected : Ty} {base : Path} {span : Span}
  {certificate : Certificate} {findings : Findings} {middle : Pool} {compiled : Compiled}

/-- Laying the parts of a pattern over their types adds types to the pool by joins
    only, if that of each part does. -/
theorem CollectsParts.grows_of_parts {context : CollectContext} {path : Path}
    {typeOf : Step → Option Ty} {parts : List (Step × Pattern)} (hpool : pool.WellFormed)
    (hcollects : CollectsParts options context path typeOf pool parts findings later)
    (hparts : ∀ part ∈ parts, ∀ type start found next, typeOf part.1 = some type →
      start.WellFormed → pool.KeptBy start →
      (part.2.collect options context type (path ++ [part.1.clip])).Yields start found next →
        Pool.Grows start next ∧ found.Known next) :
    Pool.Grows pool later ∧ findings.Known later := by
  refine hcollects.fold (R := fun start findings next => start.WellFormed → pool.KeptBy start →
    Pool.Grows start next ∧ findings.Known next) ?_ ?_ ?_ hpool (Pool.KeptBy.refl pool)
  · exact fun start _ _ => ⟨.refl start, Findings.known_empty start⟩
  · intro a b c first others hfirst hothers ha hkept
    obtain ⟨hgrows, hknown⟩ := hfirst ha hkept
    obtain ⟨hb, hab⟩ := hgrows.keeps ha
    obtain ⟨hlast, hknown'⟩ := hothers hb (hkept.trans hab)
    exact ⟨hgrows.trans hlast, (hknown.mono (hlast.keeps hb).2).append hknown'⟩
  · intro part hmem type start found next htype hyields hstart hkept
    exact hparts part hmem type start found next htype hstart hkept hyields

theorem collectAlternatives_grows_of_alternatives {index : Nat} (hpool : pool.WellFormed)
    (hexpected : pool.contains expected)
    (hcollects : (Pattern.collectAlternatives options alternatives certificate index expected
      base).Yields pool findings later)
    (halternatives : ∀ pattern ∈ alternatives, ∀ context start found next, start.WellFormed →
      start.contains expected →
      (pattern.collect options context expected base).Yields start found next →
        Pool.Grows start next ∧ found.Known next) :
    Pool.Grows pool later ∧ findings.Known later := by
  refine Pattern.collectAlternatives_fold (R := fun start findings next =>
    start.WellFormed → start.contains expected → Pool.Grows start next ∧ findings.Known next)
    hcollects ?_ ?_ ?_ hpool hexpected
  · exact fun start _ _ => ⟨.refl start, Findings.known_empty start⟩
  · intro a b c first others hfirst hothers ha hknown
    obtain ⟨hgrows, hfound⟩ := hfirst ha hknown
    obtain ⟨hb, hab⟩ := hgrows.keeps ha
    obtain ⟨hlast, hfound'⟩ := hothers hb (hab.contains hknown)
    exact ⟨hgrows.trans hlast, (hfound.mono (hlast.keeps hb).2).append hfound'⟩
  · intro offset pattern start found next hpattern hyields hstart hknown
    exact halternatives pattern (List.mem_of_getElem? hpattern) _ _ _ _ hstart hknown hyields

/-- A compilation adds types to the pool by joins only, if laying the alternatives
    over the type does. -/
theorem CompilesTo.grows_of_alternatives (hpool : pool.WellFormed)
    (hexpected : pool.contains expected) (hnonempty : alternatives ≠ [])
    (hcompiles : CompilesTo options alternatives expected base span pool certificate findings middle
      compiled later)
    (halternatives : ∀ pattern ∈ alternatives, ∀ context start found next, start.WellFormed →
      start.contains expected →
      (pattern.collect options context expected base).Yields start found next →
        Pool.Grows start next ∧ found.Known next) :
    (Pool.Grows pool middle ∧ findings.Known middle) ∧
      Pool.Grows middle later ∧ compiled.environment.Known later := by
  have hcollected :=
    collectAlternatives_grows_of_alternatives hpool hexpected hcompiles.collected halternatives
  refine ⟨hcollected, ?_⟩
  have hcount : (certificate.evidence alternatives.length findings).alternatives ≠ 0 :=
    fun h => hnonempty (List.length_eq_zero_iff.mp h)
  have hempty : ({} : Environment).Known middle := fun entry hmem => absurd hmem List.not_mem_nil
  exact Evidence.reconcileNames_grows (hcollected.1.keeps hpool).1 hcount hcollected.2 hempty
    hcompiles.reconciled

namespace Pattern

/-- Laying a pattern over a known type adds types to the pool by joins only. -/
theorem collect_grows (pattern : Pattern) (context : CollectContext) (expected : Ty)
    (path : Path) (pool : Pool) (findings : Findings) (later : Pool) (hpool : pool.WellFormed)
    (hexpected : pool.contains expected)
    (hcollect : (pattern.collect options context expected path).Yields pool findings later) :
    Pool.Grows pool later ∧ findings.Known later := by
  induction pattern using inductParts generalizing context expected path pool findings later with
  | wildcard span =>
    obtain ⟨rfl, rfl⟩ := collect_wildcard_yields_iff.mp hcollect
    exact ⟨.refl pool, Findings.known_empty pool⟩
  | bind name ascription span =>
    obtain ⟨site, hsite, rfl, rfl⟩ := collect_bind_yields_iff.mp hcollect
    obtain ⟨-, rfl⟩ := CollectContext.site_eq_ok_iff.mp hsite
    refine ⟨.refl pool, fun site hmem _ => ?_⟩
    cases List.mem_singleton.mp hmem
    exact hexpected
  | literal value span =>
    obtain ⟨-, rfl, rfl⟩ := collect_literal_yields_iff.mp hcollect
    exact ⟨.refl pool, Findings.known_empty pool⟩
  | branch pattern hbranch ih =>
    obtain ⟨-, hparts⟩ := (collect_branch_yields_iff hbranch).mp hcollect
    refine hparts.grows_of_parts hpool ?_
    intro part hmem type start found next htype hstart hkept hyields
    have htype := hkept.contains (partType?_known hpool htype)
    exact ih part hmem context type _ start found next hstart htype hyields
  | or alternatives span ih =>
    obtain ⟨hmany, certificate, inner, middle, compiled, sites, hcompiles, hsites, rfl⟩ :=
      collect_or_yields_iff.mp hcollect
    have hnonempty : alternatives ≠ [] := List.ne_nil_of_length_pos (by omega)
    obtain ⟨⟨hgrows, -⟩, hlast, hknown⟩ := hcompiles.grows_of_alternatives hpool hexpected hnonempty
      fun pattern hmem context start found next hstart htype hyields =>
        ih pattern hmem context expected path start found next hstart htype hyields
    refine ⟨hgrows.trans hlast, fun site hsite hnone => ?_⟩
    obtain ⟨entry, hentry, place, -, -, rfl⟩ :=
      exists_of_forall₂ (CollectContext.nestedSites_eq_ok_iff.mp hsites) hsite
    refine hknown entry hentry ?_
    cases horigin : entry.origin with
    | inferred => rfl
    | ascribed => simp [EnvironmentEntry.ascription, horigin] at hnone

end Pattern

theorem CollectsParts.grows {context : CollectContext} {path : Path} {typeOf : Step → Option Ty}
    {parts : List (Step × Pattern)} (hpool : pool.WellFormed)
    (hknown : ∀ step type, typeOf step = some type → pool.contains type)
    (hcollects : CollectsParts options context path typeOf pool parts findings later) :
    Pool.Grows pool later ∧ findings.Known later := by
  refine hcollects.grows_of_parts hpool ?_
  intro part hmem type start found next htype hstart hkept hyields
  exact part.2.collect_grows _ _ _ _ _ _ hstart (hkept.contains (hknown _ _ htype)) hyields

theorem collectAlternatives_grows {index : Nat} (hpool : pool.WellFormed)
    (hexpected : pool.contains expected)
    (hcollects : (Pattern.collectAlternatives options alternatives certificate index expected
      base).Yields pool findings later) :
    Pool.Grows pool later ∧ findings.Known later :=
  collectAlternatives_grows_of_alternatives hpool hexpected hcollects
    fun pattern _ context start found next hstart htype hyields =>
      pattern.collect_grows context expected base start found next hstart htype hyields

/-- Each part has its own step, between the pools at the two ends, whose findings are
    among those of all. -/
theorem CollectsParts.exists_step {context : CollectContext} {path : Path}
    {typeOf : Step → Option Ty} {parts : List (Step × Pattern)} (hpool : pool.WellFormed)
    (hknown : ∀ step type, typeOf step = some type → pool.contains type)
    (hcollects : CollectsParts options context path typeOf pool parts findings later)
    {part : Step × Pattern} (hmem : part ∈ parts) :
    ∃ type start found next, typeOf part.1 = some type ∧ start.WellFormed ∧ pool.KeptBy start ∧
      next.KeptBy later ∧
      (part.2.collect options context type (path ++ [part.1.clip])).Yields start found next ∧
      found.nested ⊆ findings.nested ∧ found.sites ⊆ findings.sites := by
  induction hcollects with
  | nil => exact absurd hmem List.not_mem_nil
  | @cons pool middle later step pattern parts type first others typed head tail ih =>
    obtain ⟨hmiddle, hkept⟩ :=
      (pattern.collect_grows _ _ _ _ _ _ hpool (hknown step type typed) head).1.keeps hpool
    have hmiddleKnown : ∀ step type, typeOf step = some type → middle.contains type :=
      fun step type htype => hkept.contains (hknown step type htype)
    rcases List.mem_cons.mp hmem with rfl | hmem
    · exact ⟨type, pool, first, middle, typed, hpool, Pool.KeptBy.refl pool,
        ((tail.grows hmiddle hmiddleKnown).1.keeps hmiddle).2, head,
        List.subset_append_left _ _, List.subset_append_left _ _⟩
    · obtain ⟨type, start, found, next, htype, hstart, hkept', hlater, hyields, hnested, hsites⟩ :=
        ih hmiddle hmiddleKnown hmem
      exact ⟨type, start, found, next, htype, hstart, hkept.trans hkept', hlater, hyields,
        List.subset_append_of_subset_right _ hnested, List.subset_append_of_subset_right _ hsites⟩

/-- Each alternative has its own step, whose findings are among those of all. -/
theorem Pattern.exists_alternative_step {index : Nat} (hpool : pool.WellFormed)
    (hexpected : pool.contains expected)
    (hcollects : (collectAlternatives options alternatives certificate index expected base).Yields
      pool findings later) {offset : Nat} {pattern : Pattern}
    (hpattern : alternatives[offset]? = some pattern) :
    ∃ start found next, start.WellFormed ∧ pool.KeptBy start ∧ next.KeptBy later ∧
      (pattern.collect options ⟨certificate, index + offset⟩ expected base).Yields start found next ∧
      found.nested ⊆ findings.nested ∧ found.sites ⊆ findings.sites := by
  induction alternatives generalizing index pool findings offset with
  | nil => cases hpattern
  | cons first rest ih =>
    obtain ⟨found, middle, hfirst, others, hothers, rfl⟩ :=
      collectAlternatives_cons_yields_iff.mp hcollects
    obtain ⟨hmiddle, hkept⟩ :=
      (first.collect_grows _ _ _ _ _ _ hpool hexpected hfirst).1.keeps hpool
    cases offset with
    | zero =>
      cases hpattern
      exact ⟨pool, found, middle, hpool, Pool.KeptBy.refl pool,
        ((collectAlternatives_grows hmiddle (hkept.contains hexpected) hothers).1.keeps hmiddle).2,
        hfirst, List.subset_append_left _ _, List.subset_append_left _ _⟩
    | succ offset =>
      obtain ⟨start, found', next, hstart, hkept', hlater, hyields, hnested, hsites⟩ :=
        ih hmiddle (hkept.contains hexpected) hothers hpattern
      rw [Nat.add_assoc, Nat.add_comm 1] at hyields
      exact ⟨start, found', next, hstart, hkept.trans hkept', hlater, hyields,
        List.subset_append_of_subset_right _ hnested, List.subset_append_of_subset_right _ hsites⟩

theorem CompilesTo.grows (hpool : pool.WellFormed) (hexpected : pool.contains expected)
    (hnonempty : alternatives ≠ [])
    (hcompiles : CompilesTo options alternatives expected base span pool certificate findings middle
      compiled later) :
    (Pool.Grows pool middle ∧ findings.Known middle) ∧
      Pool.Grows middle later ∧ compiled.environment.Known later :=
  hcompiles.grows_of_alternatives hpool hexpected hnonempty
    fun pattern _ context start found next hstart htype hyields =>
      pattern.collect_grows context expected base start found next hstart htype hyields

end OrPattern
