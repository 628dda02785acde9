import OrPattern.Compile
import OrPattern.Proofs.Compile.Yields
import OrPattern.Proofs.Name.Lookup
import OrPattern.Proofs.Pattern.Parts

namespace OrPattern

open Attempt

variable {options : Options} {pool later : Pool} {context : CollectContext} {expected : Ty}
  {path : Path} {findings : Findings}

theorem Findings.append_empty (findings : Findings) : findings ++ ({} : Findings) = findings :=
  congr (congrArg Findings.mk (List.append_nil _)) (List.append_nil _)

/-- Two steps in a row bring to light what the first does and then what the second
    does. -/
theorem yields_append_iff {first others : Attempt Findings} :
    Attempt.Yields (do
        let found ← first
        let rest ← others
        return found ++ rest) pool findings later ↔
      ∃ found middle, first.Yields pool found middle ∧
        ∃ rest, others.Yields middle rest later ∧ found ++ rest = findings := by
  simp only [yields_bind_iff, yields_pure_iff]
  refine exists_congr fun found => exists_congr fun middle => and_congr_right fun _ => ?_
  constructor
  · rintro ⟨rest, _, hrest, rfl, rfl⟩
    exact ⟨rest, hrest, rfl⟩
  · rintro ⟨rest, hrest, rfl⟩
    exact ⟨rest, later, hrest, rfl, rfl⟩

/-- The parts of a pattern, laid one after the other over their types. -/
inductive CollectsParts (options : Options) (context : CollectContext) (path : Path)
    (typeOf : Step → Option Ty) : Pool → List (Step × Pattern) → Findings → Pool → Prop where
  | nil (pool : Pool) : CollectsParts options context path typeOf pool [] {} pool
  | cons {pool middle later : Pool} {step : Step} {pattern : Pattern}
      {parts : List (Step × Pattern)} {type : Ty} {first others : Findings}
      (typed : typeOf step = some type)
      (head : (pattern.collect options context type (path ++ [step.clip])).Yields pool first middle)
      (tail : CollectsParts options context path typeOf middle parts others later) :
      CollectsParts options context path typeOf pool ((step, pattern) :: parts) (first ++ others)
        later

variable {typeOf : Step → Option Ty} {parts : List (Step × Pattern)}

theorem collectsParts_nil_iff :
    CollectsParts options context path typeOf pool [] findings later ↔
      ({} : Findings) = findings ∧ pool = later := by
  constructor
  · intro h
    cases h
    exact ⟨rfl, rfl⟩
  · rintro ⟨rfl, rfl⟩
    exact .nil pool

theorem collectsParts_cons_iff {step : Step} {pattern : Pattern} {type : Ty}
    (htype : typeOf step = some type) :
    CollectsParts options context path typeOf pool ((step, pattern) :: parts) findings later ↔
      ∃ first middle, (pattern.collect options context type (path ++ [step.clip])).Yields pool first
        middle ∧ ∃ others, CollectsParts options context path typeOf middle parts others later ∧
          first ++ others = findings := by
  constructor
  · intro h
    cases h with
    | cons typed head tail =>
      cases htype.symm.trans typed
      exact ⟨_, _, head, _, tail, rfl⟩
  · rintro ⟨first, middle, head, others, tail, rfl⟩
    exact .cons htype head tail

/-- What each part's step does, doing nothing does and two steps in a row do, all
    steps together do. -/
theorem CollectsParts.fold {R : Pool → Findings → Pool → Prop}
    (hcollects : CollectsParts options context path typeOf pool parts findings later)
    (hempty : ∀ pool, R pool {} pool)
    (happend : ∀ {a b c : Pool} {first others : Findings}, R a first b → R b others c →
      R a (first ++ others) c)
    (hparts : ∀ part ∈ parts, ∀ type start found next, typeOf part.1 = some type →
      (part.2.collect options context type (path ++ [part.1.clip])).Yields start found next →
        R start found next) :
    R pool findings later := by
  induction hcollects with
  | nil => exact hempty _
  | cons typed head _ ih =>
    refine happend (hparts _ List.mem_cons_self _ _ _ _ typed head) (ih fun part hmem => ?_)
    exact hparts part (List.mem_cons_of_mem _ hmem)

/-- Each part has its own step, whose findings are among those of all. -/
theorem CollectsParts.exists_part
    (hcollects : CollectsParts options context path typeOf pool parts findings later)
    {part : Step × Pattern} (hmem : part ∈ parts) :
    ∃ type start found next, typeOf part.1 = some type ∧
      (part.2.collect options context type (path ++ [part.1.clip])).Yields start found next ∧
      found.nested ⊆ findings.nested ∧ found.sites ⊆ findings.sites := by
  induction hcollects with
  | nil => exact absurd hmem List.not_mem_nil
  | @cons pool middle later step pattern parts type first others typed head tail ih =>
    rcases List.mem_cons.mp hmem with rfl | hmem
    · exact ⟨type, pool, first, middle, typed, head, List.subset_append_left _ _,
        List.subset_append_left _ _⟩
    · obtain ⟨type, start, found, next, htype, hyields, hnested, hsites⟩ := ih hmem
      exact ⟨type, start, found, next, htype, hyields, List.subset_append_of_subset_right _ hnested,
        List.subset_append_of_subset_right _ hsites⟩

theorem CollectContext.site_eq_ok_iff {name : Name} {ascription : Option Ty} {inferred : Ty}
    {span : Span} {nested : Bool} {site : BindingSite} :
    context.site name ascription inferred path span nested = .ok site ↔
      context.certificate.path? name = some path ∧
        ⟨name, context.alternative, ascription, inferred, path, span, nested⟩ = site := by
  unfold CollectContext.site
  cases context.certificate.path? name with
  | none => simp
  | some certified =>
    rw [Option.some.injEq]
    dsimp only
    split
    · next heq =>
      simp only [heq, true_and]
      exact ⟨Except.ok.inj, congrArg Except.ok⟩
    · next hne => exact ⟨nofun, fun h => absurd h.1 hne⟩

/-- What an entry of an inner environment says about the types of a name. -/
def EnvironmentEntry.ascription (entry : EnvironmentEntry) : Option Ty :=
  if entry.origin = .ascribed then some entry.type else none

/-- The sites of a nested or-pattern repeat the entries of its environment. -/
theorem CollectContext.nestedSites_eq_ok_iff {procedure : Procedure} {span : Span}
    {entries : List EnvironmentEntry} {sites : List BindingSite} :
    context.nestedSites procedure span entries = .ok sites ↔
      List.Forall₂ (fun entry site => ∃ place, procedure.bindingPath? entry.name = some place ∧
        context.certificate.path? entry.name = some place ∧
        (⟨entry.name, context.alternative, entry.ascription, entry.type, place, span, true⟩ :
          BindingSite) = site) entries sites := by
  induction entries generalizing sites with
  | nil =>
    rw [List.forall₂_nil_left_iff]
    exact ⟨fun h => (Except.ok.inj h).symm, fun h => h ▸ rfl⟩
  | cons entry rest ih =>
    rw [List.forall₂_cons_left_iff]
    simp only [nestedSites]
    cases hplace : procedure.bindingPath? entry.name with
    | none => simp
    | some place =>
      simp only [Except.bind_eq_ok_iff, Except.pure_eq_ok_iff, site_eq_ok_iff, ih]
      constructor
      · rintro ⟨site, ⟨hcertified, rfl⟩, others, hothers, rfl⟩
        exact ⟨_, others, ⟨place, rfl, hcertified, rfl⟩, hothers, rfl⟩
      · rintro ⟨site, others, ⟨_, heq, hcertified, rfl⟩, hothers, rfl⟩
        cases heq
        exact ⟨_, ⟨hcertified, rfl⟩, others, hothers, rfl⟩

namespace Pattern

theorem collect_wildcard_yields_iff {span : Span} :
    ((wildcard span).collect options context expected path).Yields pool findings later ↔
      ({} : Findings) = findings ∧ pool = later := by
  simp only [collect]
  exact yields_pure_iff

theorem collect_bind_yields_iff {name : Name} {ascription : Option Ty} {span : Span} :
    ((bind name ascription span).collect options context expected path).Yields pool findings later ↔
      ∃ site, context.site name ascription expected path span false = .ok site ∧
        ({ sites := [site] } : Findings) = findings ∧ pool = later := by
  simp only [collect, yields_bind_iff, yields_liftM_iff, yields_pure_iff]
  constructor
  · rintro ⟨site, _, ⟨hsite, rfl⟩, hfindings⟩
    exact ⟨site, hsite, hfindings⟩
  · rintro ⟨site, hsite, hfindings⟩
    exact ⟨site, pool, ⟨hsite, rfl⟩, hfindings⟩

theorem collect_literal_yields_iff {value : Literal} {span : Span} :
    ((literal value span).collect options context expected path).Yields pool findings later ↔
      pool.literalFits expected value ∧ ({} : Findings) = findings ∧ pool = later := by
  simp only [collect, yields_get_bind_iff]
  split
  · next hfits => simp only [hfits, yields_pure_iff, true_and]
  · next hfits => simp only [hfits, not_yields_throw, Bool.false_eq_true, false_and]

theorem collectElements_yields_iff {elements : List Pattern} {types : List Ty} {index : Nat}
    (harity : types.length = elements.length)
    (htypes : ∀ offset, typeOf (.element (index + offset)) = types[offset]?) :
    (collectElements options elements context types index path).Yields pool findings later ↔
      CollectsParts options context path typeOf pool
        ((elements.zipIdx index).map fun (element, index) => (.element index, element)) findings
        later := by
  induction elements generalizing types index pool findings later with
  | nil =>
    obtain rfl := List.length_eq_zero_iff.mp harity
    simp only [collectElements, yields_pure_iff, List.zipIdx_nil, List.map_nil,
      collectsParts_nil_iff]
  | cons element rest ih =>
    obtain ⟨type, types, rfl⟩ : ∃ type others, types = type :: others :=
      List.exists_cons_of_length_eq_add_one harity
    have harity : types.length = rest.length := by simpa using harity
    have hrest : ∀ offset, typeOf (.element (index + 1 + offset)) = types[offset]? := by
      intro offset
      rw [Nat.add_assoc, Nat.add_comm 1, htypes (offset + 1), List.getElem?_cons_succ]
    have htype : typeOf (.element index) = some type := htypes 0
    simp only [collectElements, yields_append_iff, List.zipIdx_cons, List.map_cons,
      collectsParts_cons_iff htype, Step.clip, ih harity hrest]

theorem collectFields_yields_iff {fields : List (FieldOf Pattern)} {types : List (Name × Ty)}
    (htypes : ∀ name, typeOf (.field name) = types.lookup name) :
    (collectFields options fields context expected types path).Yields pool findings later ↔
      CollectsParts options context path typeOf pool
        (fields.map fun field => (.field field.name, field.pattern)) findings later := by
  induction fields generalizing pool findings later with
  | nil => simp only [collectFields, yields_pure_iff, List.map_nil, collectsParts_nil_iff]
  | cons field rest ih =>
    obtain ⟨name, pattern, span⟩ := field
    simp only [collectFields, List.map_cons]
    cases htype : types.lookup name with
    | none =>
      simp only [not_yields_throw, false_iff]
      intro h
      cases h with
      | cons typed _ _ => cases htype.symm.trans ((htypes name).symm.trans typed)
    | some type =>
      simp only [yields_append_iff, ih, collectsParts_cons_iff ((htypes name).trans htype),
        Step.clip]

theorem isSome_of_collectsParts
    (hcollects : CollectsParts options context path typeOf pool parts findings later) :
    ∀ part ∈ parts, (typeOf part.1).isSome := by
  induction hcollects with
  | nil => exact nofun
  | cons typed _ _ ih =>
    intro part hmem
    rcases List.mem_cons.mp hmem with rfl | hmem
    · exact Option.isSome_of_mem typed
    · exact ih part hmem

theorem collect_variant_yields_iff {tag : Name} {inner : Pattern} {span : Span} :
    ((variant tag inner span).collect options context expected path).Yields pool findings later ↔
      (variant tag inner span).Fits pool expected ∧ CollectsParts options context path
        ((variant tag inner span).partType? pool expected) pool (variant tag inner span).parts findings
        later := by
  have hpart : (variant tag inner span).partType? pool expected .payload =
      (pool.variants? expected).bind (List.lookup tag) := rfl
  simp only [collect, yields_get_bind_iff, Fits, Pool.payload?, parts]
  cases hvariants : pool.variants? expected with
  | none => simp [not_yields_throw]
  | some variants =>
    cases htag : variants.lookup tag with
    | none => simp [not_yields_throw, htag]
    | some payload =>
      have hpart := hpart.trans ((congrArg (Option.bind · _) hvariants).trans htag)
      simp only [Option.bind_some, htag, Option.isSome_some, true_and,
        collectsParts_cons_iff hpart, collectsParts_nil_iff]
      constructor
      · intro h
        exact ⟨findings, later, h, {}, ⟨rfl, rfl⟩, findings.append_empty⟩
      · rintro ⟨first, _, hfirst, _, ⟨rfl, rfl⟩, rfl⟩
        rw [first.append_empty]
        exact hfirst

theorem collect_tuple_yields_iff {elements : List Pattern} {span : Span} :
    ((tuple elements span).collect options context expected path).Yields pool findings later ↔
      (tuple elements span).Fits pool expected ∧ CollectsParts options context path
        ((tuple elements span).partType? pool expected) pool (tuple elements span).parts findings
        later := by
  simp only [collect, yields_get_bind_iff, Fits, parts]
  cases htypes : pool.elements? expected with
  | none => simp [not_yields_throw]
  | some types =>
    have hpart : ∀ offset, (tuple elements span).partType? pool expected (.element (0 + offset)) =
        types[offset]? := by
      intro offset
      simp [partType?, htypes]
    dsimp only
    split
    · next harity =>
      rw [collectElements_yields_iff harity hpart]
      simp [harity]
    · next harity => simp [not_yields_throw, harity]

/-- A record pattern is checked for missing fields only after its fields, each of
    which is then one of the type. -/
theorem collect_record_yields_iff {fields : List (FieldOf Pattern)} {rest : Bool} {span : Span} :
    ((record fields rest span).collect options context expected path).Yields pool findings later ↔
      (record fields rest span).Fits pool expected ∧ CollectsParts options context path
        ((record fields rest span).partType? pool expected) pool (record fields rest span).parts
        findings later := by
  simp only [collect, yields_get_bind_iff, Fits, parts]
  cases htypes : pool.fields? expected with
  | none => simp [not_yields_throw]
  | some types =>
    have hpart : ∀ name, (record fields rest span).partType? pool expected (.field name) =
        types.lookup name := by
      intro name
      simp [partType?, Pool.field?, htypes]
    have hmissing : ((types.map Prod.fst).filter fun name =>
        !(fields.map FieldOf.name).contains name).isEmpty ↔
          ∀ field ∈ types, field.1 ∈ fields.map FieldOf.name := by
      rw [List.isEmpty_iff, List.filter_eq_nil_iff]
      simp
    simp only [yields_bind_iff, collectFields_yields_iff hpart, Option.some.injEq, exists_eq_left']
    constructor
    · rintro ⟨found, middle, hparts, h⟩
      split at h
      · next hrest =>
        obtain ⟨rfl, rfl⟩ := yields_pure_iff.mp h
        refine ⟨⟨fun field hfield => ?_, fun hclosed => ?_⟩, hparts⟩
        · have hsome := isSome_of_collectsParts hparts _ (List.mem_map.mpr ⟨field, hfield, rfl⟩)
          rw [hpart] at hsome
          obtain ⟨type, htype⟩ := Option.isSome_iff_exists.mp hsome
          exact List.mem_map.mpr ⟨(field.name, type), mem_of_lookup htype, rfl⟩
        · rw [hclosed, Bool.false_or] at hrest
          exact hmissing.mp hrest
      · exact absurd h not_yields_throw
    · rintro ⟨⟨-, hclosed⟩, hparts⟩
      refine ⟨findings, later, hparts, ?_⟩
      rw [if_pos, yields_pure_iff]
      · exact ⟨rfl, rfl⟩
      · cases rest with
        | true => rfl
        | false => exact hmissing.mpr (hclosed rfl)

/-- A variant, tuple or record is collected from by collecting from its parts, if
    it fits the type. -/
theorem collect_branch_yields_iff {pattern : Pattern} (hbranch : pattern.isBranch) :
    (pattern.collect options context expected path).Yields pool findings later ↔
      pattern.Fits pool expected ∧ CollectsParts options context path
        (pattern.partType? pool expected) pool pattern.parts findings later := by
  cases pattern with
  | variant tag inner span => exact collect_variant_yields_iff
  | tuple elements span => exact collect_tuple_yields_iff
  | record fields rest span => exact collect_record_yields_iff
  | wildcard | bind | literal | or => cases hbranch

theorem collectAlternatives_nil_yields_iff {certificate : Certificate} {index : Nat} :
    (collectAlternatives options [] certificate index expected path).Yields pool findings later ↔
      ({} : Findings) = findings ∧ pool = later := by
  simp only [collectAlternatives]
  exact yields_pure_iff

theorem collectAlternatives_cons_yields_iff {pattern : Pattern} {rest : List Pattern}
    {certificate : Certificate} {index : Nat} :
    (collectAlternatives options (pattern :: rest) certificate index expected path).Yields pool
        findings later ↔
      ∃ first middle,
        (pattern.collect options ⟨certificate, index⟩ expected path).Yields pool first middle ∧
        ∃ others, (collectAlternatives options rest certificate (index + 1) expected path).Yields
          middle others later ∧ first ++ others = findings := by
  simp only [collectAlternatives, yields_append_iff]

/-- What each alternative's step does, doing nothing does and two steps in a row
    do, all steps together do. -/
theorem collectAlternatives_fold {R : Pool → Findings → Pool → Prop} {alternatives : List Pattern}
    {certificate : Certificate} {index : Nat}
    (hcollects : (collectAlternatives options alternatives certificate index expected path).Yields
      pool findings later) (hempty : ∀ pool, R pool {} pool)
    (happend : ∀ {a b c : Pool} {first others : Findings}, R a first b → R b others c →
      R a (first ++ others) c)
    (halternatives : ∀ (offset : Nat) pattern start found next, alternatives[offset]? = some pattern →
      (pattern.collect options ⟨certificate, index + offset⟩ expected path).Yields start found next →
        R start found next) :
    R pool findings later := by
  induction alternatives generalizing index pool findings with
  | nil =>
    obtain ⟨rfl, rfl⟩ := collectAlternatives_nil_yields_iff.mp hcollects
    exact hempty pool
  | cons pattern rest ih =>
    obtain ⟨first, middle, hfirst, others, hothers, rfl⟩ :=
      collectAlternatives_cons_yields_iff.mp hcollects
    refine happend (halternatives 0 pattern _ _ _ rfl hfirst) (ih hothers ?_)
    intro offset other start found next hother hyields
    rw [Nat.add_assoc, Nat.add_comm 1] at hyields
    exact halternatives (offset + 1) other start found next hother hyields

/-- Each alternative has its own step, whose findings are among those of all. -/
theorem exists_alternative {alternatives : List Pattern} {certificate : Certificate} {index : Nat}
    (hcollects : (collectAlternatives options alternatives certificate index expected path).Yields
      pool findings later) {offset : Nat} {pattern : Pattern}
    (hpattern : alternatives[offset]? = some pattern) :
    ∃ start found next,
      (pattern.collect options ⟨certificate, index + offset⟩ expected path).Yields start found next ∧
      found.nested ⊆ findings.nested ∧ found.sites ⊆ findings.sites := by
  induction alternatives generalizing index pool findings offset with
  | nil => cases hpattern
  | cons first rest ih =>
    obtain ⟨found, middle, hfirst, others, hothers, rfl⟩ :=
      collectAlternatives_cons_yields_iff.mp hcollects
    cases offset with
    | zero =>
      cases hpattern
      exact ⟨pool, found, middle, hfirst, List.subset_append_left _ _, List.subset_append_left _ _⟩
    | succ offset =>
      obtain ⟨start, found', next, hyields, hnested, hsites⟩ := ih hothers hpattern
      rw [Nat.add_assoc, Nat.add_comm 1] at hyields
      exact ⟨start, found', next, hyields, List.subset_append_of_subset_right _ hnested,
        List.subset_append_of_subset_right _ hsites⟩

end Pattern

/-- The phases of a compilation that succeeds: what the alternatives agree to
    bind, what they bring to light over the expected type, the types of their
    names and the procedure. -/
structure CompilesTo (options : Options) (alternatives : List Pattern) (expected : Ty) (base : Path)
    (span : Span) (pool : Pool) (certificate : Certificate) (findings : Findings) (middle : Pool)
    (compiled : Compiled) (later : Pool) : Prop where
  certified : Pattern.certify alternatives base span = .ok certificate
  collected : (Pattern.collectAlternatives options alternatives certificate 0 expected base).Yields
    pool findings middle
  reconciled : ((certificate.evidence alternatives.length findings).reconcile span).Yields middle
    compiled.environment later
  emitted : (certificate.evidence alternatives.length findings).emit options compiled.environment
    base alternatives = .ok compiled.procedure

variable {alternatives : List Pattern} {base : Path} {span : Span} {compiled : Compiled}

theorem compileWith_yields_iff :
    (compileWith options alternatives base span fun certificate =>
        Pattern.collectAlternatives options alternatives certificate 0 expected base).Yields pool
      compiled later ↔
      ∃ certificate findings middle, CompilesTo options alternatives expected base span pool
        certificate findings middle compiled later := by
  simp only [compileWith, yields_bind_iff, yields_liftM_iff, yields_pure_iff]
  constructor
  · rintro ⟨certificate, _, ⟨hcertified, rfl⟩, findings, middle, hcollected, environment, _,
      hreconciled, procedure, _, ⟨hemitted, rfl⟩, rfl, rfl⟩
    exact ⟨certificate, findings, middle, hcertified, hcollected, hreconciled, hemitted⟩
  · rintro ⟨certificate, findings, middle, hcompiles⟩
    exact ⟨certificate, pool, ⟨hcompiles.certified, rfl⟩, findings, middle, hcompiles.collected,
      compiled.environment, later, hcompiles.reconciled, compiled.procedure, later,
      ⟨hcompiles.emitted, rfl⟩, rfl, rfl⟩

theorem compileOrWith_yields_iff {collect : Certificate → Attempt Findings} :
    (compileOrWith options alternatives base span collect).Yields pool compiled later ↔
      2 ≤ alternatives.length ∧
        (compileWith options alternatives base span collect).Yields pool compiled later := by
  unfold compileOrWith
  split
  · next hfew =>
    refine ⟨fun h => absurd h not_yields_throw, fun h => ?_⟩
    omega
  · next hmany => simp only [Nat.le_of_not_lt hmany, true_and]

/-- A nested or-pattern is compiled on its own, and stands for what it binds. -/
theorem Pattern.collect_or_yields_iff :
    ((or alternatives span).collect options context expected path).Yields pool findings later ↔
      2 ≤ alternatives.length ∧ ∃ certificate inner middle compiled sites,
        CompilesTo options alternatives expected path span pool certificate inner middle compiled
          later ∧
        context.nestedSites compiled.procedure span compiled.environment.entries = .ok sites ∧
        ⟨sites, [⟨context.alternative, path, compiled⟩]⟩ = findings := by
  simp only [collect, yields_bind_iff, yields_liftM_iff, yields_pure_iff, compileOrWith_yields_iff,
    compileWith_yields_iff]
  constructor
  · rintro ⟨compiled, _, ⟨hmany, certificate, inner, middle, hcompiles⟩, sites, _, ⟨hsites, rfl⟩,
      rfl, rfl⟩
    exact ⟨hmany, certificate, inner, middle, compiled, sites, hcompiles, hsites, rfl⟩
  · rintro ⟨hmany, certificate, inner, middle, compiled, sites, hcompiles, hsites, rfl⟩
    exact ⟨compiled, later, ⟨hmany, certificate, inner, middle, hcompiles⟩, sites, later,
      ⟨hsites, rfl⟩, rfl, rfl⟩

theorem Pattern.compile_yields_iff {pattern : Pattern} :
    (pattern.compile options expected).Yields pool compiled later ↔
      (pattern.isOr → 2 ≤ pattern.alternatives.length) ∧ ∃ certificate findings middle,
        CompilesTo options pattern.alternatives expected [] pattern.span pool certificate findings
          middle compiled later := by
  cases pattern with
  | or alternatives span =>
    simp only [compile, compileOrWith_yields_iff, compileWith_yields_iff]
    exact and_congr_left fun _ => ⟨fun h _ => h, fun h => h rfl⟩
  | wildcard | bind | literal | variant | tuple | record =>
    simp only [compile, compileWith_yields_iff]
    exact ⟨fun h => ⟨nofun, h⟩, And.right⟩

end OrPattern
