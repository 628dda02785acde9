import OrPattern.Proofs.Naming.Emission
import OrPattern.Proofs.Name.Lookup

namespace OrPattern

open HasNames (withNames)
open Attempt

variable {names : Name → Name} (hnames : Function.Injective names) {pool : Pool} {options : Options}

section Lookups

include hnames

variable {types : List (Name × Ty)} (htypes : AscendingByName Prod.fst types)
include htypes

theorem lookup_fieldsWithNames (name : Name) :
    (fieldsWithNames names types).lookup (names name) = types.lookup name := by
  refine Option.ext fun type => ?_
  rw [lookup_eq_some_iff_mem (ascending_fieldsWithNames names types).nodup,
    lookup_eq_some_iff_mem htypes.nodup, (fieldsWithNames_perm hnames htypes).mem_iff,
    mem_withNames_iff hnames]

/-- The same fields are missing from a pattern, in the order of their new names. -/
theorem missing_withNames (mentioned : List Name) :
    ((fieldsWithNames names types).map Prod.fst).filter
        (fun name => !(mentioned.map names).contains name) =
      sortByName id (((types.map Prod.fst).filter fun name => !mentioned.contains name).map
        names) := by
  have hascending : AscendingByName id ((fieldsWithNames names types).map Prod.fst) :=
    List.pairwise_map.mpr (ascending_fieldsWithNames names types)
  have hlisted : ∀ name, name ∈ (fieldsWithNames names types).map Prod.fst ↔
      ∃ old ∈ types.map Prod.fst, names old = name := by
    intro name
    rw [((fieldsWithNames_perm hnames htypes).map Prod.fst).mem_iff]
    simp [withNames]
  refine AscendingByName.eq_of_mem_iff (hascending.filter _) (ascendingByName_sortByName id _)
    fun name => ?_
  rw [mem_sortByName_iff, List.mem_filter, hlisted, List.mem_map]
  constructor
  · rintro ⟨⟨old, hold, rfl⟩, hopen⟩
    refine ⟨old, List.mem_filter.mpr ⟨hold, ?_⟩, rfl⟩
    simpa [List.mem_map_of_injective hnames] using hopen
  · rintro ⟨old, hold, rfl⟩
    obtain ⟨hold, hopen⟩ := List.mem_filter.mp hold
    refine ⟨⟨old, hold, rfl⟩, ?_⟩
    simpa [List.mem_map_of_injective hnames] using hopen

omit hnames htypes

theorem isEmpty_sortByName_map (names : Name → Name) (listed : List Name) :
    (sortByName id (listed.map names)).isEmpty = listed.isEmpty := by
  rw [Bool.eq_iff_iff, List.isEmpty_iff, List.isEmpty_iff, List.eq_nil_iff_forall_not_mem,
    List.eq_nil_iff_forall_not_mem]
  simp only [mem_sortByName_iff, List.mem_map]
  exact ⟨fun hnone name hmem => hnone _ ⟨name, hmem, rfl⟩,
    fun hnone _ ⟨name, hmem, _⟩ => hnone name hmem⟩

end Lookups

namespace CollectContext

variable (context : CollectContext) (name : Name) (span : Span)
include hnames

theorem site_withNames (ascription : Option Ty) (inferred : Ty) (path : Path) (nested : Bool) :
    (withNames names context).site (names name) ascription inferred (withNames names path) span
        nested =
      withNames names (context.site name ascription inferred path span nested) := by
  have hplace : (withNames names context).certificate.path? (names name) =
      (context.certificate.path? name).map (withNames names) :=
    lookup_withNames hnames name context.certificate.bindings
  simp only [site, hplace]
  cases context.certificate.path? name with
  | none => rfl
  | some certified =>
    simp only [Option.map_some, path_eq_iff hnames]
    split <;> rfl

theorem nestedSites_withNames (procedure : Procedure) (entries : List EnvironmentEntry) :
    (withNames names context).nestedSites (withNames names procedure) span
        (withNames names entries) =
      withNames names (context.nestedSites procedure span entries) := by
  induction entries with
  | nil => rfl
  | cons entry rest ih =>
    have hplace := procedure.bindingPath?_withNames hnames entry.name
    simp only [withNames_cons, nestedSites]
    rw [show (withNames names entry).name = names entry.name from rfl,
      show (withNames names procedure).bindingPath? (names entry.name) = _ from hplace]
    cases procedure.bindingPath? entry.name with
    | none => rfl
    | some path =>
      exact withNames_bind (context.site_withNames hnames entry.name span _ entry.type path true)
        fun first _ => withNames_bind ih fun others _ => rfl

end CollectContext

theorem Certificate.evidence_withNames (names : Name → Name) (certificate : Certificate)
    (alternatives : Nat) (findings : Findings) :
    (withNames names certificate).evidence alternatives (withNames names findings) =
      withNames names (certificate.evidence alternatives findings) := by
  simp only [Certificate.evidence, Certificate.names, withNames, List.map_map, Function.comp_def]

section Compilations

variable {alternatives : List Pattern} {base : Path} {span : Span}
  {collect otherCollect : Certificate → Attempt Findings}

theorem Pattern.map_zipIdx_allWithNames {β : Type} {view : Pattern × Nat → β}
    (hview : ∀ (pattern : Pattern) (index : Nat),
      view (withNames names pattern, index) = view (pattern, index))
    (patterns : List Pattern) (index : Nat) :
    ((allWithNames names patterns).zipIdx index).map view = (patterns.zipIdx index).map view := by
  rw [allWithNames_eq]
  refine (congrArg (List.map view) (List.zipIdx_map ..)).trans (List.map_map.trans ?_)
  exact List.map_congr_left fun item _ => hview item.1 item.2

include hnames
variable (hpool : pool.WellFormed) (hextends : ∀ certificate, (collect certificate).Extends)
  (hcollect : ∀ certificate,
    Follows names pool (collect certificate) (otherCollect (withNames names certificate)))
include hpool hextends hcollect

theorem follows_compileWith :
    Follows names pool (compileWith options alternatives base span collect)
      (compileWith options (Pattern.allWithNames names alternatives) (withNames names base) span
        otherCollect) := by
  unfold compileWith
  refine .bind (.liftM (Pattern.certify_withNames hnames alternatives base span).symm) (.liftM _)
    (fun certificate => extends_collected certificate hextends) fun certificate => ?_
  refine .bind (hcollect certificate) (hextends certificate)
    (fun findings => Evidence.extends_reconciled _) fun findings => ?_
  rw [Pattern.length_allWithNames, Certificate.evidence_withNames]
  have hreconcile : Follows names pool
      ((certificate.evidence alternatives.length findings).reconcile span)
      ((withNames names (certificate.evidence alternatives.length findings)).reconcile span) :=
    Evidence.follows_reconcileNames hnames _ hpool span _ {}
  refine .bind hreconcile (Evidence.extends_reconcileNames _ span _ _)
    (fun environment => Evidence.extends_emitted _ environment) fun environment => ?_
  refine .bind (.liftM (Evidence.emit_withNames hnames
    (certificate.evidence alternatives.length findings) environment base options
    alternatives).symm) (.liftM _) (fun procedure => .pure _) fun procedure => ?_
  exact .pure (⟨procedure, environment⟩ : Compiled)

theorem follows_compileOrWith :
    Follows names pool (compileOrWith options alternatives base span collect)
      (compileOrWith options (Pattern.allWithNames names alternatives) (withNames names base) span
        otherCollect) := by
  unfold compileOrWith
  rw [Pattern.length_allWithNames]
  split
  · refine .throw ?_
    rw [Pattern.map_zipIdx_allWithNames fun pattern index => by
      dsimp only
      rw [Pattern.span_withNames]]
    rfl
  · exact follows_compileWith hnames hpool hextends hcollect

end Compilations

theorem Findings.withNames_append (names : Name → Name) (first others : Findings) :
    withNames names (first ++ others) = withNames names first ++ withNames names others :=
  congrArg₂ Findings.mk List.map_append List.map_append

theorem follows_empty : Follows names pool (pure ({} : Findings)) (pure {}) :=
  .pure ({} : Findings)

/-- Findings from two steps in a row. -/
theorem follows_append {first otherFirst others otherOthers : Attempt Findings}
    (hfirst : Follows names pool first otherFirst) (hextends : first.Extends)
    (hothers : Follows names pool others otherOthers) (hextends' : others.Extends) :
    Follows names pool
      (do
        let first ← first
        let others ← others
        return first ++ others)
      (do
        let first ← otherFirst
        let others ← otherOthers
        return first ++ others) := by
  refine hfirst.bind hextends (fun _ => hextends'.bind fun _ => .pure _) fun first => ?_
  refine hothers.bind hextends' (fun _ => .pure _) fun others => ?_
  rw [← Findings.withNames_append]
  exact .pure (first ++ others)

namespace Pattern

section Nodes

variable (context : CollectContext) (expected : Ty) (path : Path) {span : Span}

include hnames

theorem follows_variant {tag : Name} {inner : Pattern}
    (hinner : ∀ payload, Follows names pool
      (inner.collect options context payload (path ++ [.payload]))
      ((inner.withNames names).collect options (withNames names context) payload
        (withNames names (path ++ [.payload])))) :
    Follows names pool ((variant tag inner span).collect options context expected path)
      (((variant tag inner span).withNames names).collect options (withNames names context) expected
        (withNames names path)) := by
  simp only [Pattern.withNames, collect]
  refine .get_bind ?_
  rw [Pool.variants?_withNames]
  cases pool.variants? expected with
  | none => exact .throw rfl
  | some variants =>
    dsimp only [Option.map_some]
    rw [lookup_withNames hnames]
    cases variants.lookup tag with
    | none => exact .throw rfl
    | some payload =>
      have hpayload := hinner payload
      rwa [withNames_append] at hpayload

theorem follows_record {fields : List (FieldOf Pattern)} {rest : Bool} (hpool : pool.WellFormed)
    (hfields : ∀ types, AscendingByName Prod.fst types → Follows names pool
      (collectFields options fields context expected types path)
      (collectFields options (Pattern.fieldsWithNames names fields) (withNames names context)
        expected (OrPattern.fieldsWithNames names types) (withNames names path))) :
    Follows names pool ((record fields rest span).collect options context expected path)
      (((record fields rest span).withNames names).collect options (withNames names context) expected
        (withNames names path)) := by
  simp only [Pattern.withNames, collect]
  refine .get_bind ?_
  rw [Pool.fields?_withNames, names_fieldsWithNames]
  cases htypes : pool.fields? expected with
  | none => exact .throw rfl
  | some types =>
    have hascending := hpool.ascending (Pool.fields?_eq_some htypes)
    dsimp only [Option.map_some]
    rw [missing_withNames hnames hascending]
    refine .bind (hfields types hascending) (extends_collectFields fields _ _ _ _) (fun _ => ?_)
      fun findings => ?_
    · split
      · exact .pure _
      · exact .throw _
    · rw [isEmpty_sortByName_map]
      split
      · exact .pure findings
      · exact .throw rfl

theorem follows_or {alternatives : List Pattern} (hpool : pool.WellFormed)
    (halternatives : ∀ certificate, Follows names pool
      (collectAlternatives options alternatives certificate 0 expected path)
      (collectAlternatives options (allWithNames names alternatives) (withNames names certificate) 0
        expected (withNames names path))) :
    Follows names pool ((or alternatives span).collect options context expected path)
      (((or alternatives span).withNames names).collect options (withNames names context) expected
        (withNames names path)) := by
  have hextends := fun certificate =>
    @extends_collectAlternatives options alternatives certificate 0 expected path
  simp only [Pattern.withNames, collect]
  refine .bind (follows_compileOrWith hnames hpool hextends halternatives)
    (extends_compileOrWith hextends) (fun _ => Extends.bind (.liftM _) fun _ => .pure _)
    fun compiled => ?_
  refine .bind (.liftM (context.nestedSites_withNames hnames span compiled.procedure
    compiled.environment.entries).symm) (.liftM _) (fun _ => .pure _) fun sites => ?_
  exact .pure (⟨sites, [⟨context.alternative, path, compiled⟩]⟩ : Findings)

end Nodes

mutual

theorem follows_collect (hnames : Function.Injective names) (hpool : pool.WellFormed) :
    ∀ (pattern : Pattern) (context : CollectContext) (expected : Ty) (path : Path),
      Follows names pool (pattern.collect options context expected path)
        ((pattern.withNames names).collect options (withNames names context) expected
          (withNames names path))
  | wildcard _, _, _, _ => by
    simp only [Pattern.withNames, collect]
    exact follows_empty
  | bind name ascription span, context, expected, path => by
    simp only [Pattern.withNames, collect]
    refine .bind (.liftM (context.site_withNames hnames name span ascription expected path
      false).symm) (.liftM _) (fun _ => .pure _) fun site => ?_
    exact .pure ({ sites := [site] } : Findings)
  | literal value span, context, expected, path => by
    simp only [Pattern.withNames, collect]
    refine .get_bind ?_
    rw [Pool.literalFits_withNames]
    split
    · exact follows_empty
    · exact .throw rfl
  | variant _ inner _, context, expected, path =>
    follows_variant hnames context expected path fun payload =>
      follows_collect hnames hpool inner context payload (path ++ [.payload])
  | tuple elements span, context, expected, path => by
    simp only [Pattern.withNames, collect]
    refine .get_bind ?_
    rw [Pool.elements?_withNames, length_allWithNames]
    cases pool.elements? expected with
    | none => exact .throw rfl
    | some types =>
      dsimp only
      split
      · exact follows_collectElements hnames hpool elements context types 0 path
      · exact .throw rfl
  | record fields _ _, context, expected, path =>
    follows_record hnames context expected path hpool fun _ htypes =>
      follows_collectFields hnames hpool htypes fields context expected path
  | or alternatives _, context, expected, path =>
    follows_or hnames context expected path hpool fun certificate =>
      follows_collectAlternatives hnames hpool alternatives certificate 0 expected path

theorem follows_collectElements (hnames : Function.Injective names) (hpool : pool.WellFormed) :
    ∀ (elements : List Pattern) (context : CollectContext) (types : List Ty) (index : Nat)
      (path : Path),
      Follows names pool (collectElements options elements context types index path)
        (collectElements options (allWithNames names elements) (withNames names context) types index
          (withNames names path))
  | [], _, _, _, _ => by
    simp only [allWithNames, collectElements]
    exact follows_empty
  | _ :: _, _, [], _, _ => by
    simp only [allWithNames, collectElements]
    exact follows_empty
  | element :: rest, context, type :: types, index, path => by
    have hfirst := follows_collect hnames hpool element context type
      (path ++ [.element (clipIndex index)])
    rw [withNames_append] at hfirst
    simp only [allWithNames, collectElements]
    exact follows_append hfirst (extends_collect element _ _ _)
      (follows_collectElements hnames hpool rest context types (index + 1) path)
      (extends_collectElements rest _ _ _ _)

theorem follows_collectFields (hnames : Function.Injective names) (hpool : pool.WellFormed)
    {types : List (Name × Ty)} (htypes : AscendingByName Prod.fst types) :
    ∀ (fields : List (FieldOf Pattern)) (context : CollectContext) (expected : Ty) (path : Path),
      Follows names pool (collectFields options fields context expected types path)
        (collectFields options (Pattern.fieldsWithNames names fields) (withNames names context)
          expected (OrPattern.fieldsWithNames names types) (withNames names path))
  | [], _, _, _ => by
    simp only [Pattern.fieldsWithNames, collectFields]
    exact follows_empty
  | ⟨name, pattern, span⟩ :: rest, context, expected, path => by
    simp only [Pattern.fieldsWithNames, collectFields]
    rw [lookup_fieldsWithNames hnames htypes]
    cases types.lookup name with
    | none => exact .throw rfl
    | some type =>
      have hfirst := follows_collect hnames hpool pattern context type (path ++ [.field name])
      rw [withNames_append] at hfirst
      exact follows_append hfirst (extends_collect pattern _ _ _)
        (follows_collectFields hnames hpool htypes rest context expected path)
        (extends_collectFields rest _ _ _ _)

theorem follows_collectAlternatives (hnames : Function.Injective names) (hpool : pool.WellFormed) :
    ∀ (alternatives : List Pattern) (certificate : Certificate) (index : Nat) (expected : Ty)
      (base : Path),
      Follows names pool (collectAlternatives options alternatives certificate index expected base)
        (collectAlternatives options (allWithNames names alternatives) (withNames names certificate)
          index expected (withNames names base))
  | [], _, _, _, _ => by
    simp only [allWithNames, collectAlternatives]
    exact follows_empty
  | pattern :: rest, certificate, index, expected, base => by
    simp only [allWithNames, collectAlternatives]
    exact follows_append (follows_collect hnames hpool pattern ⟨certificate, index⟩ expected base)
      (extends_collect pattern _ _ _)
      (follows_collectAlternatives hnames hpool rest certificate (index + 1) expected base)
      (extends_collectAlternatives rest _ _ _ _)

end

end Pattern

end OrPattern
