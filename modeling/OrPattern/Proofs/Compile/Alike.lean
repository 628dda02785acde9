import OrPattern.Proofs.Compile.Mirrors

namespace OrPattern

open Attempt

variable {options : Options} {common pool other base : Pool} {rename : Ty → Ty}

namespace CollectContext

variable (rename : Ty → Ty) (context : CollectContext)

theorem site_rename (name : Name) (ascription : Option Ty) (inferred : Ty) (path : Path)
    (span : Span) (nested : Bool) :
    context.site name (ascription.map rename) (rename inferred) path span nested =
      renameResult rename (BindingSite.rename rename)
        (context.site name ascription inferred path span nested) := by
  unfold site
  split
  · exact congrArg Except.error (Rejection.rename_ofFault _ span).symm
  · split
    · rfl
    · exact congrArg Except.error (Rejection.rename_ofFault _ span).symm

theorem nestedSites_rename (procedure : Procedure) (span : Span) (entries : List EnvironmentEntry) :
    context.nestedSites (procedure.rename rename) span
        (entries.map (EnvironmentEntry.rename rename)) =
      renameResult rename (List.map (BindingSite.rename rename))
        (context.nestedSites procedure span entries) := by
  induction entries with
  | nil => rfl
  | cons entry rest ih =>
    have hname : (entry.rename rename).name = entry.name := rfl
    have hascription : (entry.rename rename).ascription = entry.ascription.map rename := by
      unfold EnvironmentEntry.ascription
      cases horigin : entry.origin <;> simp [EnvironmentEntry.rename, horigin]
    simp only [List.map_cons, nestedSites, hname, Procedure.bindingPath?_rename, ih]
    cases procedure.bindingPath? entry.name with
    | none => exact congrArg Except.error (Rejection.rename_ofFault _ span).symm
    | some path =>
      change (context.site entry.name (entry.rename rename).ascription (rename entry.type) path span
        true >>= _) = renameResult rename _
          (context.site entry.name entry.ascription entry.type path span true >>= _)
      rw [hascription, site_rename]
      exact renameResult_bind fun first => renameResult_bind fun others => rfl

variable {rename context}

theorem known_site {name : Name} {ascription : Option Ty} {inferred : Ty} {path : Path}
    {span : Span} {nested : Bool} (hinferred : pool.contains inferred)
    (hascription : ∀ ascribed ∈ ascription, pool.contains ascribed) :
    HasTypes.Known pool (context.site name ascription inferred path span nested) := by
  intro site hsite
  obtain ⟨-, rfl⟩ := site_eq_ok_iff.mp hsite
  exact ⟨hinferred, hascription⟩

theorem known_nestedSites {procedure : Procedure} {span : Span} {environment : Environment}
    (henvironment : HasTypes.Known pool environment) :
    HasTypes.Known pool (context.nestedSites procedure span environment.entries) := by
  intro sites hsites site hsite
  obtain ⟨entry, hentry, place, -, -, rfl⟩ :=
    exists_of_forall₂ (nestedSites_eq_ok_iff.mp hsites) hsite
  refine ⟨henvironment entry hentry, fun ascribed hascribed => ?_⟩
  unfold EnvironmentEntry.ascription at hascribed
  split at hascribed
  · cases hascribed
    exact henvironment entry hentry
  · cases hascribed

end CollectContext

/-- The shape phase names no types. -/
theorem Pattern.renameResult_certify (alternatives : List Pattern) (path : Path) (span : Span) :
    renameResult rename id (certify alternatives path span) = certify alternatives path span := by
  have hshape := rejectsOnly_certify alternatives path span
  cases hcertify : certify alternatives path span with
  | ok certificate => rfl
  | error rejection =>
    obtain ⟨problem, span, sites, huntyped, rfl⟩ := hshape rejection hcertify
    exact congrArg Except.error (Rejection.rename_ofShape problem span huntyped)

section Compilations

variable {alternatives : List Pattern} {path : Path} {span : Span}
  {collect otherCollect : Certificate → Attempt Findings}
  (htwins : Pool.Twins common rename pool other)
  (hextends : ∀ certificate, (collect certificate).Extends)
  (hextends' : ∀ certificate, (otherCollect certificate).Extends)
  (hcollect : ∀ certificate later otherLater, pool.KeptBy later →
    Pool.Twins common rename later otherLater →
    Mirrors common rename later otherLater (collect certificate) (otherCollect certificate))
include htwins hextends hextends' hcollect

theorem mirrors_compileWith :
    Mirrors common rename pool other (compileWith options alternatives path span collect)
      (compileWith options alternatives path span otherCollect) := by
  have hcertify := Mirrors.liftM htwins (Pattern.certify alternatives path span) fun _ _ => trivial
  have hsame : HasTypes.rename rename (Pattern.certify alternatives path span) =
    Pattern.certify alternatives path span := Pattern.renameResult_certify alternatives path span
  rw [hsame] at hcertify
  unfold compileWith
  refine hcertify.bind (fun certificate => extends_collected certificate hextends)
    (fun certificate => extends_collected certificate hextends') ?_
  intro certificate middle otherMiddle hkept htwins _
  refine (hcollect certificate middle otherMiddle hkept htwins).bind
    (fun findings => Evidence.extends_reconciled _)
    (fun findings => Evidence.extends_reconciled _) ?_
  intro findings later otherLater _ htwins hfindings
  let evidence := certificate.evidence alternatives.length findings
  refine (evidence.mirrors_reconcileNames span certificate.names {} htwins hfindings nofun).bind
    (fun environment => evidence.extends_emitted environment)
    (fun environment => Evidence.extends_emitted _ environment) ?_
  intro environment last otherLast _ htwins henvironment
  have hemit := Mirrors.liftM htwins (evidence.emit options environment path alternatives)
    fun _ _ => trivial
  have hsame : HasTypes.rename rename (evidence.emit options environment path alternatives) =
      (evidence.rename rename).emit options (environment.rename rename) path alternatives :=
    (evidence.emit_rename htwins.embeds.injective options environment path alternatives).symm
  rw [hsame] at hemit
  exact hemit.bind (fun procedure => .pure _) (fun procedure => .pure _)
    fun procedure _ _ hkept htwins _ =>
      .pure htwins (⟨procedure, environment⟩ : Compiled) (HasTypes.known_mono hkept henvironment)

theorem mirrors_compileOrWith :
    Mirrors common rename pool other (compileOrWith options alternatives path span collect)
      (compileOrWith options alternatives path span otherCollect) := by
  unfold compileOrWith
  split
  · exact .throw htwins (Rejection.rename_ofShape _ span (List.forall_mem_map.mpr fun _ _ => rfl))
  · exact mirrors_compileWith htwins hextends hextends' hcollect

end Compilations

theorem mirrors_empty (htwins : Pool.Twins common rename pool other) :
    Mirrors common rename pool other (pure ({} : Findings)) (pure {}) :=
  .pure htwins ({} : Findings) nofun

theorem Findings.known_append {first others : Findings} (hfirst : HasTypes.Known pool first)
    (hothers : HasTypes.Known pool others) : HasTypes.Known pool (first ++ others) :=
  List.forall_mem_append.mpr ⟨hfirst, hothers⟩

theorem Findings.rename_append (rename : Ty → Ty) (first others : Findings) :
    (first ++ others).rename rename = first.rename rename ++ others.rename rename :=
  congrArg₂ Findings.mk List.map_append List.map_append

/-- Findings from two steps in a row. -/
theorem mirrors_append {first otherFirst others otherOthers : Attempt Findings}
    (hfirst : Mirrors common rename pool other first otherFirst)
    (hextends : others.Extends) (hextends' : otherOthers.Extends)
    (hothers : ∀ later otherLater, pool.KeptBy later → Pool.Twins common rename later otherLater →
      Mirrors common rename later otherLater others otherOthers) :
    Mirrors common rename pool other
      (do
        let first ← first
        let others ← others
        return first ++ others)
      (do
        let first ← otherFirst
        let others ← otherOthers
        return first ++ others) := by
  refine hfirst.bind (fun _ => hextends.bind fun _ => .pure _)
    (fun _ => hextends'.bind fun _ => .pure _) ?_
  intro first middle otherMiddle hkept htwins hfirst
  refine (hothers middle otherMiddle hkept htwins).bind (fun _ => .pure _) (fun _ => .pure _) ?_
  intro others later otherLater hkept htwins hothers
  have happend := Findings.rename_append rename first others
  have hhere := Mirrors.pure htwins (first ++ others)
    (Findings.known_append (HasTypes.known_mono hkept hfirst) hothers)
  rwa [show HasTypes.rename rename (first ++ others) = _ from happend] at hhere

namespace Pattern

/-- Laid over a type, the pattern leads to the same findings from pools that hold
    the same as the base or more. -/
def CollectsAlike (options : Options) (common : Pool) (rename : Ty → Ty) (base : Pool)
    (pattern : Pattern) : Prop :=
  ∀ (pool other : Pool) (context : CollectContext) (expected : Ty) (path : Path), base.KeptBy pool →
    Pool.Twins common rename pool other → pool.contains expected →
    Mirrors common rename pool other (pattern.collect options context expected path)
      (pattern.collect options context (rename expected) path)

variable {context : CollectContext} {expected : Ty} {path : Path}

theorem mirrors_collectElements {elements : List Pattern} {types : List Ty} {index : Nat}
    (helements : ∀ element ∈ elements, CollectsAlike options common rename base element)
    (hkept : base.KeptBy pool) (htwins : Pool.Twins common rename pool other)
    (htypes : HasTypes.Known pool types) :
    Mirrors common rename pool other (collectElements options elements context types index path)
      (collectElements options elements context (types.map rename) index path) := by
  induction elements generalizing pool other types index with
  | nil =>
    simp only [collectElements]
    exact mirrors_empty htwins
  | cons element rest ih =>
    cases types with
    | nil =>
      simp only [List.map_nil, collectElements]
      exact mirrors_empty htwins
    | cons type types =>
      obtain ⟨helement, hrest⟩ := List.forall_mem_cons.mp helements
      obtain ⟨htype, htypes⟩ := List.forall_mem_cons.mp htypes
      simp only [List.map_cons, collectElements]
      exact mirrors_append (helement pool other context type _ hkept htwins htype)
        (extends_collectElements rest _ _ _ _) (extends_collectElements rest _ _ _ _)
        fun later otherLater hlater htwins =>
          ih hrest (hkept.trans hlater) htwins (HasTypes.known_mono hlater htypes)

theorem mirrors_collectFields {fields : List (FieldOf Pattern)} {types : List (Name × Ty)}
    (hfields : ∀ field ∈ fields, CollectsAlike options common rename base field.pattern)
    (hkept : base.KeptBy pool) (htwins : Pool.Twins common rename pool other)
    (htypes : HasTypes.Known pool types) :
    Mirrors common rename pool other (collectFields options fields context expected types path)
      (collectFields options fields context (rename expected) (HasTypes.rename rename types)
        path) := by
  induction fields generalizing pool other with
  | nil =>
    simp only [collectFields]
    exact mirrors_empty htwins
  | cons field rest ih =>
    obtain ⟨name, pattern, span⟩ := field
    obtain ⟨hpattern, hrest⟩ := List.forall_mem_cons.mp hfields
    have hlookup : (HasTypes.rename rename types).lookup name = (types.lookup name).map rename :=
      lookup_map rename name types
    simp only [collectFields]
    rw [hlookup]
    cases hfound : types.lookup name with
    | none => exact .throw htwins (Rejection.rename_ofScrutinee ..)
    | some type =>
      have htype : pool.contains type := htypes _ (mem_of_lookup hfound)
      exact mirrors_append (hpattern pool other context type _ hkept htwins htype)
        (extends_collectFields rest _ _ _ _) (extends_collectFields rest _ _ _ _)
        fun later otherLater hlater htwins =>
          ih hrest (hkept.trans hlater) htwins (HasTypes.known_mono hlater htypes)

theorem mirrors_collectAlternatives {alternatives : List Pattern} (certificate : Certificate)
    (index : Nat) (path : Path)
    (halternatives : ∀ choice ∈ alternatives, CollectsAlike options common rename base choice)
    (hkept : base.KeptBy pool) (htwins : Pool.Twins common rename pool other)
    (hexpected : pool.contains expected) :
    Mirrors common rename pool other
      (collectAlternatives options alternatives certificate index expected path)
      (collectAlternatives options alternatives certificate index (rename expected) path) := by
  induction alternatives generalizing pool other index with
  | nil =>
    simp only [collectAlternatives]
    exact mirrors_empty htwins
  | cons choice rest ih =>
    obtain ⟨hchoice, hrest⟩ := List.forall_mem_cons.mp halternatives
    simp only [collectAlternatives]
    exact mirrors_append
      (hchoice pool other ⟨certificate, index⟩ expected path hkept htwins hexpected)
      (extends_collectAlternatives rest _ _ _ _) (extends_collectAlternatives rest _ _ _ _)
      fun later otherLater hlater htwins =>
        ih _ hrest (hkept.trans hlater) htwins (hlater.contains hexpected)

/-- A node has the same fit in either pool, and so have its parts the same types. -/
theorem collectsAlike_branch {pattern : Pattern} (hbranch : pattern.isBranch)
    (hparts : ∀ part ∈ pattern.parts, CollectsAlike options common rename base part.2) :
    CollectsAlike options common rename base pattern := by
  intro pool other context expected path hkept htwins hexpected
  cases pattern with
  | wildcard | bind | literal | or => cases hbranch
  | variant tag inner span =>
    simp only [collect]
    refine .get_bind ?_
    rw [htwins.embeds.variants?_eq hexpected]
    cases hvariants : pool.variants? expected with
    | none => exact .throw htwins (Rejection.rename_ofScrutinee ..)
    | some variants =>
      have hlookup := lookup_map rename tag variants
      dsimp only [Option.map_some]
      rw [hlookup]
      cases hpayload : variants.lookup tag with
      | none => exact .throw htwins (Rejection.rename_ofScrutinee ..)
      | some payload =>
        have htype : (variant tag inner span).partType? pool expected .payload = some payload := by
          simp only [partType?, Pool.payload?, hvariants, Option.bind_some, hpayload]
        exact hparts _ List.mem_cons_self pool other context payload _ hkept htwins
          (partType?_known htwins.wellFormed htype)
  | tuple elements span =>
    simp only [collect]
    refine .get_bind ?_
    rw [htwins.embeds.elements?_eq hexpected]
    cases htypes : pool.elements? expected with
    | none => exact .throw htwins (Rejection.rename_ofScrutinee ..)
    | some types =>
      have hform := Pool.elements?_eq_some htypes
      have helements : ∀ element ∈ elements, CollectsAlike options common rename base element := by
        intro element hmem
        obtain ⟨index, hindex⟩ := List.mem_iff_getElem?.mp hmem
        exact hparts (.element index, element) (mem_parts_tuple.mpr ⟨index, rfl, hindex⟩)
      dsimp only [Option.map_some]
      rw [List.length_map]
      split
      · exact mirrors_collectElements helements hkept htwins fun type hmem =>
          htwins.wellFormed.contains_of_mem_mentions hform hmem
      · exact .throw htwins (Rejection.rename_ofScrutinee ..)
  | record fields rest span =>
    simp only [collect]
    refine .get_bind ?_
    rw [htwins.embeds.fields?_eq hexpected]
    cases htypes : pool.fields? expected with
    | none => exact .throw htwins (Rejection.rename_ofScrutinee ..)
    | some types =>
      have hform := Pool.fields?_eq_some htypes
      have hknown : HasTypes.Known pool types := fun field hmem =>
        htwins.wellFormed.contains_of_mem_mentions hform (List.mem_map.mpr ⟨field, hmem, rfl⟩)
      have hfields : ∀ field ∈ fields, CollectsAlike options common rename base field.pattern :=
        fun field hmem => hparts (.field field.name, field.pattern)
          (List.mem_map.mpr ⟨field, hmem, rfl⟩)
      have hnames : (types.map fun field => (field.1, rename field.2)).map Prod.fst =
          types.map Prod.fst := List.map_map
      dsimp only [Option.map_some]
      rw [hnames]
      refine (mirrors_collectFields hfields hkept htwins hknown).bind (fun _ => ?_) (fun _ => ?_) ?_
      · split
        · exact .pure _
        · exact .throw _
      · split
        · exact .pure _
        · exact .throw _
      · intro findings later otherLater _ htwins hfindings
        split
        · exact .pure htwins findings hfindings
        · exact .throw htwins (Rejection.rename_ofScrutinee ..)

/-- Laid over one type, a pattern whose ascriptions are types of the base leads to the
    same findings from either pool. -/
theorem collectsAlike (hfixed : ∀ type, base.contains type → rename type = type) (pattern : Pattern)
    (hascribed : pattern.AscriptionsKnown base) :
    CollectsAlike options common rename base pattern := by
  induction pattern using inductParts with
  | wildcard span =>
    intro pool other context expected path hkept htwins hexpected
    simp only [collect]
    exact mirrors_empty htwins
  | literal value span =>
    intro pool other context expected path hkept htwins hexpected
    simp only [collect]
    refine .get_bind ?_
    rw [htwins.embeds.literalFits_eq hexpected]
    split
    · exact mirrors_empty htwins
    · exact .throw htwins (Rejection.rename_ofScrutinee ..)
  | bind name ascription span =>
    intro pool other context expected path hkept htwins hexpected
    have hknown : ∀ ascribed ∈ ascription, base.contains ascribed := by
      rintro ascribed rfl
      exact hascribed name ascribed span (self_mem_nodes _)
    have hsame : ascription.map rename = ascription :=
      (Option.map_congr fun ascribed hmem => hfixed ascribed (hknown ascribed hmem)).trans
        (congrFun Option.map_id ascription)
    have hsite := Mirrors.liftM htwins (context.site name ascription expected path span false)
      (CollectContext.known_site hexpected fun ascribed hmem =>
        hkept.contains (hknown ascribed hmem))
    have hrenamed := context.site_rename rename name ascription expected path span false
    rw [hsame] at hrenamed
    simp only [collect]
    rw [hrenamed]
    refine hsite.bind (fun _ => .pure _) (fun _ => .pure _) fun site _ _ _ htwins hsite => ?_
    exact .pure htwins ({ sites := [site] } : Findings) (List.forall_mem_singleton.mpr hsite)
  | branch pattern hbranch ih =>
    exact collectsAlike_branch hbranch fun part hmem =>
      ih part hmem (hascribed.of_subset fun node => mem_nodes_of_part hmem)
  | or alternatives span ih =>
    intro pool other context expected path hkept htwins hexpected
    have hchoices : ∀ choice ∈ alternatives, CollectsAlike options common rename base choice :=
      fun choice hmem => ih choice hmem (hascribed.of_subset fun node => mem_nodes_of_choice hmem)
    have hextends : ∀ (type : Ty) (certificate : Certificate),
        (collectAlternatives options alternatives certificate 0 type path).Extends :=
      fun type certificate => extends_collectAlternatives alternatives certificate 0 type path
    simp only [collect]
    refine Mirrors.bind (mirrors_compileOrWith htwins (hextends expected)
      (hextends (rename expected)) fun certificate later otherLater hlater htwins =>
        mirrors_collectAlternatives certificate 0 path hchoices (hkept.trans hlater) htwins
          (hlater.contains hexpected)) (fun _ => Extends.bind (.liftM _) fun _ => .pure _)
      (fun _ => Extends.bind (.liftM _) fun _ => .pure _) ?_
    intro compiled later otherLater hlater htwins hcompiled
    have hsites := Mirrors.liftM htwins
      (context.nestedSites compiled.procedure span compiled.environment.entries)
      (CollectContext.known_nestedSites hcompiled)
    have hrenamed := context.nestedSites_rename rename compiled.procedure span
      compiled.environment.entries
    rw [show HasTypes.rename rename (context.nestedSites _ span _) = _ from hrenamed.symm] at hsites
    refine hsites.bind (fun _ => .pure _) (fun _ => .pure _) fun sites _ _ _ htwins hsites => ?_
    exact .pure htwins (⟨sites, [⟨context.alternative, path, compiled⟩]⟩ : Findings) hsites

/-- A pattern is compiled alike from either pool, and the same types are entered
    into both, even if it is rejected. -/
theorem mirrors_compile (options : Options)
    (hfixed : ∀ type, base.contains type → rename type = type) {pattern : Pattern} {scrutinee : Ty}
    (hascribed : pattern.AscriptionsKnown base) (hscrutinee : base.contains scrutinee)
    (hkept : base.KeptBy pool) (htwins : Pool.Twins common rename pool other) :
    Mirrors common rename pool other (pattern.compile options scrutinee)
      (pattern.compile options scrutinee) := by
  have hcollect : ∀ choice ∈ pattern.alternatives,
      CollectsAlike options common rename base choice := fun choice hmem =>
    choice.collectsAlike hfixed (hascribed.of_subset fun node => mem_nodes_of_alternative hmem)
  have halternatives := fun (certificate : Certificate) (later otherLater : Pool)
      (hlater : pool.KeptBy later) (htwins : Pool.Twins common rename later otherLater) =>
    mirrors_collectAlternatives certificate 0 [] hcollect (hkept.trans hlater) htwins
      ((hkept.trans hlater).contains hscrutinee)
  rw [hfixed scrutinee hscrutinee] at halternatives
  have hextends : ∀ certificate : Certificate,
      (collectAlternatives options pattern.alternatives certificate 0 scrutinee []).Extends :=
    fun certificate => extends_collectAlternatives pattern.alternatives certificate 0 scrutinee []
  cases pattern with
  | or alternatives span =>
    simp only [compile]
    exact mirrors_compileOrWith htwins hextends hextends halternatives
  | wildcard | bind | literal | variant | tuple | record =>
    simp only [compile]
    exact mirrors_compileWith htwins hextends hextends halternatives

end Pattern

end OrPattern
