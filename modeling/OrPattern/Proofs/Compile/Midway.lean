import OrPattern.Proofs.Compile.Sites
import OrPattern.Proofs.Compile.Unknown

namespace OrPattern

open Attempt

/-- A pool that the compilation of a pattern over a type has come to. Types may have
    been entered since, but none if the base pool does not know the type: then no
    form is found and all that is joined is the type with itself. -/
structure Midway (base : Pool) (expected : Ty) (pool : Pool) : Prop where
  wellFormed : pool.WellFormed
  kept : base.KeptBy pool
  known : base.contains expected ∨ base = pool

variable {options : Options} {base pool later : Pool} {context : CollectContext} {expected type : Ty}
  {path : Path} {findings : Findings} {pattern : Pattern} {alternatives : List Pattern}
  {certificate : Certificate} {span : Span}

namespace Midway

theorem refl (hbase : base.WellFormed) : Midway base expected base :=
  ⟨hbase, Pool.KeptBy.refl base, .inr rfl⟩

theorem form?_eq (hmidway : Midway base expected pool) : pool.form? expected = base.form? expected := by
  rcases hmidway.known with hknown | rfl
  · exact hmidway.kept.form?_eq hknown
  · rfl

theorem variants?_eq (hmidway : Midway base expected pool) :
    pool.variants? expected = base.variants? expected := by
  simp only [Pool.variants?, hmidway.form?_eq]

theorem elements?_eq (hmidway : Midway base expected pool) :
    pool.elements? expected = base.elements? expected := by
  simp only [Pool.elements?, hmidway.form?_eq]

theorem fields?_eq (hmidway : Midway base expected pool) :
    pool.fields? expected = base.fields? expected := by
  simp only [Pool.fields?, hmidway.form?_eq]

theorem literalFits_eq (hmidway : Midway base expected pool) (literal : Literal) :
    pool.literalFits expected literal = base.literalFits expected literal := by
  simp only [Pool.literalFits, hmidway.form?_eq]

end Midway

namespace Pattern

/-- Over a type that the pool does not hold the places of a name are collected as they
    are. -/
theorem collected_of_unknown (hbase : base.WellFormed) (hunknown : ¬ base.contains expected)
    (hascribed : pattern.AscriptionsKnown base)
    (hagree : ∀ node ∈ pattern.nodes, node.ChoicesAgree)
    (hcollect : (pattern.collect options context expected path).Yields base findings later) :
    Collected base later context.alternative expected pattern findings := by
  obtain ⟨rfl, -⟩ := collect_unknown hbase hunknown hascribed hcollect
  cases pattern with
  | wildcard span =>
    obtain ⟨rfl, -⟩ := collect_wildcard_yields_iff.mp hcollect
    exact .of_nil rfl rfl
  | bind name ascription span =>
    obtain ⟨site, hsite, rfl, -⟩ := collect_bind_yields_iff.mp hcollect
    obtain ⟨-, rfl⟩ := CollectContext.site_eq_ok_iff.mp hsite
    refine ⟨rfl, List.forall_mem_singleton.mpr rfl, List.forall_mem_singleton.mpr ?_⟩
    refine Summary.of_place fun stated type => ?_
    rw [bindsAt_bind_iff]
    exact and_iff_right rfl
  | literal value span =>
    have hfits : (literal value span).Fits base expected :=
      (collect_literal_yields_iff.mp hcollect).1
    exact absurd hfits (not_fits_of_unknown hunknown rfl)
  | variant tag inner span =>
    exact absurd (collect_variant_yields_iff.mp hcollect).1 (not_fits_of_unknown hunknown rfl)
  | tuple elements span =>
    exact absurd (collect_tuple_yields_iff.mp hcollect).1 (not_fits_of_unknown hunknown rfl)
  | record fields rest span =>
    exact absurd (collect_record_yields_iff.mp hcollect).1 (not_fits_of_unknown hunknown rfl)
  | or alternatives span =>
    obtain ⟨-, certificate, inner, middle, compiled, sites, hcompiles, hsites, rfl⟩ :=
      collect_or_yields_iff.mp hcollect
    obtain ⟨-, huniform, hchoices⟩ := bare_of_compilesTo hbase hunknown hcompiles
      fun choice hmem context findings later hyields => collect_unknown hbase hunknown
        (hascribed.of_subset fun node hnode => mem_nodes_of_choice hmem hnode) hyields
    have hbare : (or alternatives span).Bare := bare_or_iff.mpr hchoices
    have hnames : compiled.environment.names = (or alternatives span).names :=
      hcompiles.environment_names
    have hrepeated := CollectContext.nestedSites_eq_ok_iff.mp hsites
    refine ⟨(CollectContext.names_of_nestedSites hsites).trans hnames, fun site hsite => ?_,
      fun site hsite => ?_⟩
    · obtain ⟨entry, -, place, -, -, rfl⟩ := exists_of_forall₂ hrepeated hsite
      rfl
    · obtain ⟨entry, hmem, place, -, -, rfl⟩ := exists_of_forall₂ hrepeated hsite
      obtain ⟨rfl, horigin⟩ := huniform entry hmem
      have hname : entry.name ∈ (or alternatives span).names :=
        hnames ▸ List.mem_map.mpr ⟨entry, hmem, rfl⟩
      have hnone : entry.ascription = none := by simp [EnvironmentEntry.ascription, horigin]
      dsimp only
      rw [hnone]
      refine Summary.of_place fun stated type => ⟨fun hplace => ?_, ?_⟩
      · obtain ⟨rfl, rfl⟩ := hbare.of_bindsAt hplace
        exact ⟨rfl, rfl⟩
      · rintro ⟨rfl, rfl⟩
        exact hbare.bindsAt hname

end Pattern

namespace Midway

/-- Collecting from a pattern goes on from one such pool to another. -/
theorem collect (hbase : base.WellFormed) (hmidway : Midway base expected pool)
    (hascribed : pattern.AscriptionsKnown base)
    (hcollect : (pattern.collect options context expected path).Yields pool findings later) :
    Midway base expected later ∧ pool.KeptBy later := by
  rcases hmidway.known with hknown | rfl
  · obtain ⟨hlater, hstep⟩ := (pattern.collect_grows _ _ _ _ _ _ hmidway.wellFormed
      (hmidway.kept.contains hknown) hcollect).1.keeps hmidway.wellFormed
    exact ⟨⟨hlater, hmidway.kept.trans hstep, .inl hknown⟩, hstep⟩
  · by_cases hknown : base.contains expected
    · obtain ⟨hlater, hstep⟩ := (pattern.collect_grows _ _ _ _ _ _ hbase hknown
        hcollect).1.keeps hbase
      exact ⟨⟨hlater, hstep, .inl hknown⟩, hstep⟩
    · obtain ⟨rfl, -⟩ := Pattern.collect_unknown hbase hknown hascribed hcollect
      exact ⟨.refl hbase, Pool.KeptBy.refl base⟩

/-- Over any type, known or not, a pattern has one site for each name, which speaks for
    its places. -/
theorem collected (hbase : base.WellFormed) (hmidway : Midway base expected pool)
    (hascribed : pattern.AscriptionsKnown base)
    (hagree : ∀ node ∈ pattern.nodes, node.ChoicesAgree) (hnodup : pattern.names.Nodup)
    (hcollect : (pattern.collect options context expected path).Yields pool findings later) :
    Collected base later context.alternative expected pattern findings := by
  by_cases hknown : base.contains expected
  · exact pattern.collect_collected context expected path pool findings later hbase hmidway.wellFormed
      hmidway.kept hknown hagree hnodup hcollect
  · obtain rfl := hmidway.known.resolve_left hknown
    exact Pattern.collected_of_unknown hbase hknown hascribed hagree hcollect

end Midway

end OrPattern
