import OrPattern.Proofs.Compile.Justified
import OrPattern.Proofs.Compile.Midway

namespace OrPattern

open Attempt

variable {options : Options} {base pool later : Pool} {context : CollectContext} {expected : Ty}
  {path : Path} {unit choice pattern : Pattern} {rejection : Rejection}

namespace Pattern

section Parts

variable {Holds : Pool → Prop} {allowed : Pool → Rejection → Prop} {typeOf : Step → Option Ty}

/-- Laid over a type, the part is refused for nothing but what is allowed, and leaves
    the pool as it has to be. -/
def PartRejects (options : Options) (context : CollectContext) (path : Path) (Holds : Pool → Prop)
    (allowed : Pool → Rejection → Prop) (typeOf : Step → Option Ty) (part : Step × Pattern) : Prop :=
  ∀ type, typeOf part.1 = some type → ∀ start, Holds start →
    (part.2.collect options context type (path ++ [part.1.clip])).RejectsFrom start allowed ∧
      ∀ found next,
        (part.2.collect options context type (path ++ [part.1.clip])).Yields start found next →
          Holds next

theorem rejectsFrom_collectElements {elements : List Pattern} {types : List Ty} {index : Nat}
    (htypes : ∀ offset, typeOf (.element (index + offset)) = types[offset]?)
    (helements : ∀ part ∈ (elements.zipIdx index).map fun (element, index) =>
      ((.element index : Step), element), PartRejects options context path Holds allowed typeOf part)
    (hpool : Holds pool) :
    (collectElements options elements context types index path).RejectsFrom pool allowed := by
  induction elements generalizing types index pool with
  | nil =>
    simp only [collectElements]
    exact .pure _
  | cons element rest ih =>
    rw [List.zipIdx_cons, List.map_cons, List.forall_mem_cons] at helements
    cases types with
    | nil =>
      simp only [collectElements]
      exact .pure _
    | cons type types =>
      obtain ⟨hfirst, hkeeps⟩ := helements.1 type (htypes 0) pool hpool
      simp only [collectElements]
      refine .bind hfirst fun found middle hfound => .bind (ih (fun offset => ?_) helements.2
        (hkeeps found middle hfound)) fun _ _ _ => .pure _
      rw [Nat.add_assoc, Nat.add_comm 1, htypes (offset + 1), List.getElem?_cons_succ]

theorem rejectsFrom_collectFields {fields : List (FieldOf Pattern)} {types : List (Name × Ty)}
    (htypes : ∀ name, typeOf (.field name) = types.lookup name)
    (hfields : ∀ part ∈ fields.map fun field => ((.field field.name : Step), field.pattern),
      PartRejects options context path Holds allowed typeOf part)
    (hunknown : ∀ field ∈ fields, types.lookup field.name = none → ∀ span later,
      allowed later (context.mismatch path expected span (.unknownField field.name)))
    (hpool : Holds pool) :
    (collectFields options fields context expected types path).RejectsFrom pool allowed := by
  induction fields generalizing pool with
  | nil =>
    simp only [collectFields]
    exact .pure _
  | cons field rest ih =>
    rw [List.map_cons, List.forall_mem_cons] at hfields
    rw [List.forall_mem_cons] at hunknown
    simp only [collectFields]
    split
    · next hnone => exact .throw (hunknown.1 hnone _ _)
    · next type htype =>
      obtain ⟨hfirst, hkeeps⟩ := hfields.1 type ((htypes field.name).trans htype) pool hpool
      exact .bind hfirst fun found middle hfound => .bind (ih hfields.2 hunknown.2
        (hkeeps found middle hfound)) fun _ _ _ => .pure _

/-- Of a variant, tuple or record a part is refused, or the node itself for a true
    reason. -/
theorem rejectsFrom_collect_branch (Holds : Pool → Prop) (hmidway : Midway base expected pool)
    (hbranch : pattern.isBranch)
    (hparts : ∀ part ∈ pattern.parts, PartRejects options context path Holds allowed
      (pattern.partType? base expected) part)
    (hmisfit : ∀ problem, problem.Describes base expected pattern → ∀ span later,
      allowed later (context.mismatch path expected span problem)) (hpool : Holds pool) :
    (pattern.collect options context expected path).RejectsFrom pool allowed := by
  cases pattern with
  | wildcard | bind | literal | or => cases hbranch
  | variant tag inner span =>
    simp only [collect]
    refine .get_bind ?_
    rw [hmidway.variants?_eq]
    split
    · next hnone => exact .throw (hmisfit _ (.notASumType hnone) _ _)
    · next variants hvariants =>
      split
      · next hnone => exact .throw (hmisfit _ (.unknownTag hvariants hnone) _ _)
      · next payload hpayload =>
        have htype : (variant tag inner span).partType? base expected .payload = some payload := by
          rw [partType?, Pool.payload?, hvariants, Option.bind_some, hpayload]
        exact (hparts _ List.mem_cons_self payload htype pool hpool).1
  | tuple elements span =>
    simp only [collect]
    refine .get_bind ?_
    rw [hmidway.elements?_eq]
    split
    · next hnone => exact .throw (hmisfit _ (.notATuple hnone) _ _)
    · next types htypes =>
      split
      · refine rejectsFrom_collectElements (fun offset => ?_) hparts hpool
        rw [partType?, htypes, Option.bind_some, Nat.zero_add]
      · next harity => exact .throw (hmisfit _ (.tupleArity htypes harity) _ _)
  | record fields rest span =>
    simp only [collect]
    refine .get_bind ?_
    rw [hmidway.fields?_eq]
    split
    · next hnone => exact .throw (hmisfit _ (.notARecord hnone) _ _)
    · next types htypes =>
      refine .bind (rejectsFrom_collectFields (fun name => ?_) hparts (fun field hfield hnone =>
        hmisfit _ (.unknownField htypes hfield hnone)) hpool) fun _ _ _ => ?_
      · rw [partType?, Pool.field?, htypes, Option.bind_some]
      · split
        · exact .pure _
        · next hleft =>
          cases rest with
          | true => exact absurd rfl hleft
          | false =>
            exact .throw (hmisfit _ (.missingFields htypes rfl fun hnil =>
              hleft (by rw [hnil]; rfl)) _ _)

end Parts

end Pattern

variable {alternatives : List Pattern} {certificate : Certificate} {findings : Findings} {index : Nat}
  {span : Span}

theorem Midway.collectAlternatives (hbase : base.WellFormed) (hmidway : Midway base expected pool)
    (hascribed : ∀ choice ∈ alternatives, choice.AscriptionsKnown base)
    (hcollects : (Pattern.collectAlternatives options alternatives certificate index expected
      path).Yields pool findings later) : Midway base expected later :=
  Pattern.collectAlternatives_fold (R := fun start _ next => Midway base expected start →
    Midway base expected next) hcollects (fun _ => id) (fun hfirst hothers h => hothers (hfirst h))
    (fun _ choice _ _ _ hchoice hyields hstart => (hstart.collect hbase
      (hascribed choice (List.mem_of_getElem? hchoice)) hyields).1) hmidway

/-- Certified alternatives have one site each for every name of their certificate, with
    the number of the alternative. -/
theorem Midway.sites {name : Name} (hbase : base.WellFormed) (hmidway : Midway base expected pool)
    (hascribed : ∀ choice ∈ alternatives, choice.AscriptionsKnown base)
    (hcertify : Pattern.certify alternatives path span = .ok certificate)
    (hcollects : (Pattern.collectAlternatives options alternatives certificate 0 expected path).Yields
      pool findings later) (hname : name ∈ certificate.names) :
    List.Forall₂ (fun choice site => site.alternative = choice.2 ∧
      Summary later (Pattern.BindsAt base expected choice.1 name) site.ascription site.inferred)
      alternatives.zipIdx (findings.sites.filter fun site => site.name = name) := by
  obtain ⟨-, hagree, hnodes⟩ := Pattern.certify_sound hcertify
  rw [Pattern.names_of_certify hcertify] at hname
  refine (Pattern.collectAlternatives_sites_of_steps (Midway base expected) hmidway hcollects
    (fun choice hmem context start found next hstart hyields => ?_) hagree.unique
    fun choice hmem => (hagree.names_perm hmem).mem_iff.mpr hname).2
  obtain ⟨hnext, hkept⟩ := hstart.collect hbase (hascribed choice hmem) hyields
  exact ⟨hnext, hkept, hstart.collected hbase (hascribed choice hmem) (hnodes choice hmem)
    (hagree.unique choice hmem) hyields⟩

/-- The sites of certified names can be compared. -/
theorem Midway.comparable {names : List Name} (hbase : base.WellFormed)
    (hmidway : Midway base expected pool)
    (hascribed : ∀ choice ∈ alternatives, choice.AscriptionsKnown base)
    (hcollects : (Pattern.collectAlternatives options alternatives certificate 0 expected path).Yields
      pool findings later)
    (hsites : ∀ name ∈ names, List.Forall₂ (fun choice site => site.alternative = choice.2 ∧
      Summary later (Pattern.BindsAt base expected choice.1 name) site.ascription site.inferred)
      alternatives.zipIdx (findings.sites.filter fun site => site.name = name)) :
    BindingSite.Comparable later
      (names.flatMap (certificate.evidence alternatives.length findings).sites) := by
  by_cases hknown : base.contains expected
  · obtain ⟨hgrows, hfindings⟩ := collectAlternatives_grows hmidway.wellFormed
      (hmidway.kept.contains hknown) hcollects
    have hkept := hmidway.kept.trans (hgrows.keeps hmidway.wellFormed).2
    refine .inl fun site hmem => ?_
    obtain ⟨name, hname, hsite⟩ := List.mem_flatMap.mp hmem
    cases hascription : site.ascription with
    | none =>
      rw [BindingSite.effective, hascription, Option.getD_none]
      exact hfindings site (List.mem_of_mem_filter hsite) hascription
    | some ascribed =>
      obtain ⟨⟨choice, number⟩, hchoice, -, hsummary⟩ := exists_of_forall₂ (hsites name hname) hsite
      obtain ⟨place, hplace⟩ := hsummary.stated ascribed hascription
      rw [BindingSite.effective_of_ascribed hascription]
      exact hkept.contains ((hascribed choice (List.fst_mem_of_mem_zipIdx hchoice)).of_bindsAt hplace)
  · obtain rfl := hmidway.known.resolve_left hknown
    obtain ⟨rfl, hcollected⟩ := Pattern.collectAlternatives_unknown
      (fun choice hmem _ _ _ hyields => Pattern.collect_unknown hbase hknown (hascribed choice hmem)
        hyields) hcollects
    refine .inr ⟨expected, fun site hmem => ?_⟩
    obtain ⟨name, -, hsite⟩ := List.mem_flatMap.mp hmem
    have hsite := List.mem_of_mem_filter hsite
    exact ⟨hcollected.inferred site hsite, fun ascribed hstated =>
      Pattern.not_isSubtype_of_unknown hbase hknown (hcollected.known site hsite ascribed hstated)⟩

namespace Pattern

theorem rejectsFrom_collectAlternatives {allowed : Pool → Rejection → Prop} (hbase : base.WellFormed)
    (hmidway : Midway base expected pool)
    (hascribed : ∀ choice ∈ alternatives, choice.AscriptionsKnown base)
    (hchoices : ∀ (offset : Nat) (choice : Pattern), alternatives[offset]? = some choice → ∀ start,
      Midway base expected start →
        (choice.collect options ⟨certificate, index + offset⟩ expected path).RejectsFrom start allowed) :
    (collectAlternatives options alternatives certificate index expected path).RejectsFrom pool
      allowed := by
  induction alternatives generalizing index pool with
  | nil =>
    simp only [collectAlternatives]
    exact .pure _
  | cons choice rest ih =>
    rw [List.forall_mem_cons] at hascribed
    simp only [collectAlternatives]
    refine .bind (hchoices 0 choice rfl pool hmidway) fun found middle hfound =>
      .bind (ih (hmidway.collect hbase hascribed.1 hfound).1 hascribed.2
        fun offset other hother start hstart => ?_) fun _ _ _ => .pure _
    have hnext := hchoices (offset + 1) other hother start hstart
    rwa [← Nat.add_assoc, Nat.add_right_comm] at hnext

/-- Once the sites of its names are there, a pattern that is compiled on its own is refused
    for a conflict among them. -/
theorem refused_reconcile (hbase : base.WellFormed) (hmidway : Midway base expected pool)
    (hascribed : ∀ choice ∈ unit.alternatives, choice.AscriptionsKnown base)
    (hnonempty : unit.alternatives ≠ [])
    (hcertify : certify unit.alternatives path unit.span = .ok certificate)
    (hcollects : (collectAlternatives options unit.alternatives certificate 0 expected path).Yields
      pool findings later) :
    ((certificate.evidence unit.alternatives.length findings).reconcile unit.span).RejectsFrom later
      fun last rejection => rejection.Faultless →
        unit.Refused base last expected path rejection := by
  intro rejection last hrejected hfaultless
  have hsites := fun name (hname : name ∈ certificate.names) =>
    hmidway.sites hbase hascribed hcertify hcollects hname
  have hordered : ∀ name ∈ certificate.names, (findings.sites.filter fun site =>
      site.name = name).Pairwise fun site other => site.alternative ≤ other.alternative := by
    intro name hname
    rw [← List.pairwise_map, BindingSite.alternatives_eq_range (hsites name hname)]
    exact List.pairwise_le_range
  obtain ⟨hlast, hspan, name, hname, hconflict⟩ := Evidence.conflict_reconcileNames
    (hmidway.collectAlternatives hbase hascribed hcollects).wellFormed
    (fun h => hnonempty (List.length_eq_zero_iff.mp h))
    (hmidway.comparable hbase hascribed hcollects hsites) hordered rejection last hrejected hfaultless
  have hextends : later.Extends
      (((certificate.evidence unit.alternatives.length findings).reconcile unit.span).runOn later).2 :=
    Evidence.extends_reconcileNames _ _ _ _ later
  rw [hrejected] at hextends
  exact .of_unit ⟨hconflict.justifiedBy hlast ((hsites name hname).imp fun _ _ h =>
    ⟨h.1, h.2.mono hextends.kept⟩), .inr hspan⟩

/-- A pattern that is compiled on its own is refused for a true reason, if each of its
    alternatives is. -/
theorem refused_compileWith (hbase : base.WellFormed) (hmidway : Midway base expected pool)
    (hascribed : unit.AscriptionsKnown base) (hnonempty : unit.alternatives ≠ [])
    (hchoices : ∀ certificate, ∀ choice ∈ unit.alternatives, ∀ alternative start,
      Midway base expected start →
        (choice.collect options ⟨certificate, alternative⟩ expected path).RejectsFrom start
          fun later rejection => rejection.Faultless →
            choice.RefusedBelow base later alternative expected path rejection) :
    (compileWith options unit.alternatives path unit.span fun certificate =>
      collectAlternatives options unit.alternatives certificate 0 expected path).RejectsFrom pool
        fun later rejection => rejection.Faultless →
          unit.Refused base later expected path rejection := by
  have hknown : ∀ choice ∈ unit.alternatives, choice.AscriptionsKnown base := fun choice hmem =>
    hascribed.of_subset (alternatives_nodes_subset hmem)
  unfold compileWith
  refine .bind (.liftM ((justified_certify unit path).mono fun _ hrejected _ => .of_shape hrejected))
    fun certificate middle hyields => ?_
  obtain ⟨hcertify, rfl⟩ := yields_liftM_iff.mp hyields
  refine .bind (rejectsFrom_collectAlternatives hbase hmidway hknown
    fun offset choice hchoice start hstart => ?_) fun findings middle hcollects => ?_
  · rw [Nat.zero_add]
    exact (hchoices certificate choice (List.mem_of_getElem? hchoice) offset start hstart).mono
      fun _ _ hbelow hfaultless => .of_choice hchoice (hbelow hfaultless)
  · exact .bind (refused_reconcile hbase hmidway hknown hnonempty hcertify hcollects)
      fun environment _ _ => .bind (.liftM (Evidence.rejectsOnly_emit
        fun fault span hfaultless => absurd rfl (hfaultless fault))) fun _ _ _ => .pure _

theorem refused_compileOrWith {collect : Certificate → Attempt Findings}
    (hcompile : alternatives ≠ [] →
      (compileWith options alternatives path span collect).RejectsFrom pool
        fun later rejection => rejection.Faultless →
          (or alternatives span).Refused base later expected path rejection) :
    (compileOrWith options alternatives path span collect).RejectsFrom pool
      fun later rejection => rejection.Faultless →
        (or alternatives span).Refused base later expected path rejection := by
  unfold compileOrWith
  split
  · next hfew =>
    exact .throw fun _ => .of_unit ⟨.shape (.degenerateOr rfl hfew), .inr rfl⟩
  · next hmany => exact hcompile (List.ne_nil_of_length_pos (by omega))

/-- Collecting from a pattern, a node is refused for what does not fit, or an or-pattern
    for a true reason. -/
theorem refused_collect (pattern : Pattern) (context : CollectContext) (expected : Ty) (path : Path)
    (pool : Pool) (hbase : base.WellFormed) (hmidway : Midway base expected pool)
    (hdistinct : ∀ node ∈ pattern.nodes, node.StepsDistinct)
    (hascribed : pattern.AscriptionsKnown base) :
    (pattern.collect options context expected path).RejectsFrom pool fun later rejection =>
      rejection.Faultless →
        pattern.RefusedBelow base later context.alternative expected path rejection := by
  induction pattern using inductParts generalizing context expected path pool with
  | wildcard span =>
    simp only [collect]
    exact .pure _
  | bind name ascription span =>
    simp only [collect]
    exact .bind (.liftM (CollectContext.rejectsOnly_site fun fault span hfaultless =>
      absurd rfl (hfaultless fault))) fun _ _ _ => .pure _
  | literal value span =>
    simp only [collect]
    refine .get_bind ?_
    split
    · exact .pure _
    · next hmisfit =>
      rw [hmidway.literalFits_eq, Bool.not_eq_true] at hmisfit
      refine .throw fun _ => .misfit (.self _) rfl (.literalMismatch hmisfit) ?_
      rw [Position.path_nil, List.append_nil]
      rfl
  | branch pattern hbranch ih =>
    refine rejectsFrom_collect_branch (fun pool => pool.WellFormed ∧ base.KeptBy pool) hmidway
      hbranch (fun part hmem type htype start hstart => ?_) (fun problem hdescribes span later _ => ?_)
      ⟨hmidway.wellFormed, hmidway.kept⟩
    · have hpart : part.2.AscriptionsKnown base :=
        hascribed.of_subset fun node hnode => mem_nodes_of_part hmem hnode
      have hthere : Midway base type start :=
        ⟨hstart.1, hstart.2, .inl (partType?_known hbase htype)⟩
      have hinner : ∀ node ∈ part.2.nodes, node.StepsDistinct :=
        forall_nodes_of_part hdistinct hmem
      refine ⟨(ih part hmem context type _ start hthere hinner hpart).mono fun later rejection hbelow
        hfaultless => .of_part (hdistinct _ (self_mem_nodes _)) hmem htype (hbelow hfaultless),
        fun found next hyields => ?_⟩
      have hnext := (hthere.collect hbase hpart hyields).1
      exact ⟨hnext.wellFormed, hnext.kept⟩
    · refine .misfit (.self _) rfl hdescribes ?_
      rw [Position.path_nil, List.append_nil]
      rfl
  | or alternatives span ih =>
    simp only [collect]
    have hcompile : (compileOrWith options alternatives path span fun certificate =>
        collectAlternatives options alternatives certificate 0 expected path).RejectsFrom pool
          fun later rejection => rejection.Faultless →
            (or alternatives span).Refused base later expected path rejection :=
      refused_compileOrWith fun hnonempty => refused_compileWith hbase hmidway hascribed hnonempty
        fun certificate choice hmem alternative start hstart =>
          ih choice hmem ⟨certificate, alternative⟩ expected path start hstart
            (forall_nodes_of_choice hdistinct hmem)
            (hascribed.of_subset fun node hnode => mem_nodes_of_choice hmem hnode)
    refine .bind (hcompile.mono fun later rejection hrefused hfaultless => ?_) fun _ _ _ =>
      .bind (.liftM (CollectContext.rejectsOnly_nestedSites fun fault span hfaultless =>
        absurd rfl (hfaultless fault))) fun _ _ _ => .pure _
    refine .nested (.self _) rfl ?_
    rw [Position.path_nil, List.append_nil]
    exact hrefused hfaultless

/-- What a rejection says is true, in every detail: of the or-pattern that was being
    compiled, or of the whole pattern as its own single alternative, it tells what is
    wrong with the shape of the alternatives, with the types that they give a name, or
    with a node at its type. Types that are said to have none above all never will. -/
theorem compile_rejection_justified {scrutinee : Ty} (hpool : pool.Reachable)
    (hdistinct : ∀ node ∈ pattern.nodes, node.StepsDistinct)
    (hascribed : pattern.AscriptionsKnown pool)
    (hrejected : (pattern.compile options scrutinee).runOn pool = (.error rejection, later)) :
    ∃ position unit, pattern.UnitAt position unit ∧ rejection.JustifiedBy pool later
      (pool.typeAt? scrutinee position) (Position.path position) unit := by
  have hwell := hpool.wellFormed
  have hchoices : ∀ certificate, ∀ choice ∈ pattern.alternatives, ∀ alternative start,
      Midway pool scrutinee start →
        (choice.collect options ⟨certificate, alternative⟩ scrutinee []).RejectsFrom start
          fun later rejection => rejection.Faultless →
            choice.RefusedBelow pool later alternative scrutinee [] rejection :=
    fun certificate choice hmem alternative start hstart => choice.refused_collect _ scrutinee []
      start hwell hstart (forall_nodes_of_alternative hdistinct hmem)
      (hascribed.of_subset (alternatives_nodes_subset hmem))
  have hcompile : (pattern.compile options scrutinee).RejectsFrom pool fun later rejection =>
      rejection.Faultless → pattern.Refused pool later scrutinee [] rejection := by
    cases pattern with
    | or alternatives span =>
      exact refused_compileOrWith fun hnonempty =>
        refused_compileWith hwell (.refl hwell) hascribed hnonempty hchoices
    | wildcard | bind | literal | variant | tuple | record =>
      exact refused_compileWith hwell (.refl hwell) hascribed (List.cons_ne_nil _ _) hchoices
  exact hcompile rejection later hrejected
    (faultless_compile hdistinct pool rejection (congrArg Prod.fst hrejected))

/-- Two variants in the first element of a pair bind a name at types that nothing is
    above. -/
theorem compile_rejection_justified_of_variants :
    let sum := (Pool.initial.declareEnum ⟨1⟩ none [(⟨2⟩, .i8), (⟨3⟩, .str)]).2
    let pool := (sum.tuple [⟨11⟩, .bool]).2
    let choice := or [variant ⟨2⟩ (bind ⟨4⟩ none Span.none) Span.none,
      variant ⟨3⟩ (bind ⟨4⟩ none Span.none) Span.none] Span.none
    let pattern := tuple [choice, wildcard Span.none] Span.none
    ∃ rejection later, (pattern.compile {} ⟨12⟩).runOn pool = (.error rejection, later) ∧
      rejection.cause = .noCommonType ⟨4⟩ [(0, .i8), (1, .str)] ∧
      ∃ position unit, pattern.UnitAt position unit ∧ rejection.JustifiedBy pool later
        (pool.typeAt? ⟨12⟩ position) (Position.path position) unit := by
  intro sum pool choice pattern
  have hpool : pool.Reachable :=
    (Pool.Grows.declareEnum (.refl _) ⟨1⟩ none _ nofun (by decide)).tuple [⟨11⟩, .bool] (by decide)
  have hdistinct : ∀ node ∈ pattern.nodes, node.StepsDistinct := by
    simp [pattern, choice, nodes, nodesList, StepsDistinct]
  have hascribed : pattern.AscriptionsKnown pool := by
    intro name ascribed span hnode
    simp [pattern, choice, nodes, nodesList] at hnode
  obtain ⟨rejection, later, hrejected, hcause⟩ : ∃ rejection later,
      (pattern.compile {} ⟨12⟩).runOn pool = (.error rejection, later) ∧
        rejection.cause = .noCommonType ⟨4⟩ [(0, .i8), (1, .str)] := ⟨_, _, rfl, rfl⟩
  exact ⟨rejection, later, hrejected, hcause,
    compile_rejection_justified hpool hdistinct hascribed hrejected⟩

end Pattern

end OrPattern
