import OrPattern.Proofs.Compile.Flatten
import OrPattern.Proofs.Select.Bodies

namespace OrPattern

open Attempt

variable {options : Options} {base pool start later last common : Pool} {expected : Ty} {path : Path}
  {root : Value} {names : List Name}

/-- The alternative that holds an alternative of the flat form, where so many
    alternatives stand before a nested or-pattern that has so many. -/
def enclosing (before inner index : Nat) : Nat :=
  if index < before then index
  else if index < before + inner then before
  else index + 1 - inner

/-- Both selections bind the same, and the alternative of the nested form holds that
    of the flat one. -/
structure Selection.Flattens (before inner : Nat) (nested flat : Selection) : Prop where
  alternative : nested.alternative = enclosing before inner flat.alternative
  bindings : nested.bindings = flat.bindings

/-- Both forms give the same environment and select the same for every value. -/
structure Compiled.Flattens (before inner : Nat) (nested flat : Compiled) : Prop where
  environment : nested.environment = flat.environment
  selects : ∀ value, Option.Rel (Selection.Flattens before inner) (nested.procedure.select value)
    (flat.procedure.select value)

section Rel

variable {α β γ : Type} {R : α → β → Prop}

theorem rel_map {found : Option γ} {left : γ → α} {right : γ → β}
    (hfound : ∀ item, found = some item → R (left item) (right item)) :
    Option.Rel R (found.map left) (found.map right) := by
  cases found with
  | none => exact .none
  | some item => exact .some (hfound item rfl)

theorem rel_or {a c : Option α} {b d : Option β} (hfirst : Option.Rel R a b)
    (hsecond : Option.Rel R c d) : Option.Rel R (a.or c) (b.or d) := by
  cases hfirst with
  | none => exact hsecond
  | some hrel => exact .some hrel

end Rel

/-- A body that binds what the first of some others binds, in whichever order, can
    stand in their place. -/
theorem flattens_of_bodies {before inner after : List ArmParts} {own : ArmParts}
    (hown : Option.Rel (fun bindings found => BoundValue.arrange names bindings =
      BoundValue.arrange names found.2) (own.bindings? root) (ArmParts.first? root inner)) :
    Option.Rel (Selection.Flattens before.length inner.length)
      ((ArmParts.first? root (before ++ own :: after)).map fun found =>
        ⟨found.1, BoundValue.arrange names found.2⟩)
      ((ArmParts.first? root (before ++ (inner ++ after))).map fun found =>
        ⟨found.1, BoundValue.arrange names found.2⟩) := by
  rw [← List.singleton_append]
  simp only [ArmParts.first?_append, ArmParts.first?_singleton, Option.map_or, Option.map_map,
    Function.comp_def]
  refine rel_or (rel_map fun found hfound => ⟨?_, rfl⟩)
    (rel_or ?_ (rel_map fun found hfound => ⟨?_, rfl⟩))
  · have hlt := ArmParts.lt_of_first? hfound
    simp only [enclosing, if_pos hlt]
  · generalize own.bindings? root = bound at hown
    generalize hfirst : ArmParts.first? root inner = found at hown
    cases hown with
    | none => exact .none
    | @some bindings found hsame =>
      have hlt := ArmParts.lt_of_first? hfirst
      refine .some ⟨?_, hsame⟩
      simp only [enclosing]
      rw [if_neg (by omega), if_pos (by omega), Nat.add_zero]
  · simp only [enclosing, List.length_singleton]
    rw [if_neg (by omega), if_neg (by omega)]
    omega

theorem exists_append_of_forall₂ {α β : Type} {R : α → β → Prop} {xs ys : List α} {zs : List β}
    (hall : List.Forall₂ R (xs ++ ys) zs) :
    ∃ first rest, List.Forall₂ R xs first ∧ List.Forall₂ R ys rest ∧ first ++ rest = zs :=
  ⟨zs.take xs.length, zs.drop xs.length, (List.forall₂_take_append zs xs ys hall.flip).flip,
    (List.forall₂_drop_append zs xs ys hall.flip).flip, List.take_append_drop _ _⟩

variable {before inner after : List Pattern} {span innerSpan flatSpan : Span}
  {certificate otherCertificate : Certificate} {findings otherFindings : Findings}
  {middle otherMiddle : Pool} {nested flat : Compiled}

/-- The nested form and the flat one select alike where they have the same
    environment. -/
theorem CompilesTo.flattens (hbase : base.WellFormed) (hknown : base.contains expected)
    (hpool : pool.WellFormed) (hkept : base.KeptBy pool) (hstart : start.WellFormed)
    (hkept' : base.KeptBy start)
    (hdistinct : ∀ pattern ∈ before ++ inner ++ after, ∀ node ∈ pattern.nodes, node.StepsDistinct)
    (hnested : CompilesTo options (before ++ .or inner innerSpan :: after) expected path span pool
      certificate findings middle nested later)
    (hflat : CompilesTo options (before ++ inner ++ after) expected path flatSpan start
      otherCertificate otherFindings otherMiddle flat last)
    (henvironment : nested.environment = flat.environment) :
    nested.Flattens before.length inner.length flat := by
  refine ⟨henvironment, fun value => ?_⟩
  have hnames : ∀ pattern ∈ before ++ inner ++ after, ∀ name ∈ pattern.names,
      (flat.environment.type? name).isSome := by
    intro pattern hmem name hname
    obtain ⟨-, hagree, -⟩ := Pattern.certify_sound hflat.certified
    rw [Environment.type?_isSome_iff, hflat.environment_names]
    exact (hagree.names_perm hmem).mem_iff.mp hname
  obtain ⟨nestedBodies, hnestedBodies, hnestedArms⟩ :=
    hnested.exists_bodies hknown hpool hkept (Pattern.stepsDistinct_flatten hdistinct)
  obtain ⟨flatBodies, hflatBodies, hflatArms⟩ := hflat.exists_bodies hknown hstart hkept' hdistinct
  rw [henvironment] at hnestedBodies
  rw [List.append_assoc] at hflatBodies
  rw [List.append_assoc, List.forall_mem_append, List.forall_mem_append] at hdistinct hnames
  obtain ⟨hdistinctBefore, hdistinctInner, hdistinctAfter⟩ := hdistinct
  obtain ⟨hnamesBefore, hnamesInner, hnamesAfter⟩ := hnames
  obtain ⟨first, nestedRest, hfirst, hnestedRest, rfl⟩ := exists_append_of_forall₂ hnestedBodies
  obtain ⟨flatFirst, flatRest, hflatFirst, hflatRest, rfl⟩ := exists_append_of_forall₂ hflatBodies
  obtain ⟨second, flatThird, hsecond, hflatThird, rfl⟩ := exists_append_of_forall₂ hflatRest
  cases hnestedRest with
  | @cons _ own _ third hown hthird =>
    obtain rfl := EmittedAt.bodies_eq hbase hknown hdistinctBefore hnamesBefore hfirst hflatFirst
    obtain rfl := EmittedAt.bodies_eq hbase hknown hdistinctAfter hnamesAfter hthird hflatThird
    rw [hnested.faithful.select_of_bodies hnestedArms, hflat.faithful.select_of_bodies hflatArms,
      hnested.procedure_names, hflat.procedure_names, henvironment, hfirst.length_eq,
      hsecond.length_eq]
    exact flattens_of_bodies
      (EmittedAt.bindings?_or hbase hknown hdistinctInner hnamesInner hown hsecond)

namespace Pattern

/-- Compiled for one type over pools that have kept the base types, the nested form
    and the flat one agree. -/
theorem flattens_of_compile (hbase : base.WellFormed) (hknown : base.contains expected)
    (hpool : pool.WellFormed) (hkept : base.KeptBy pool) (hstart : start.WellFormed)
    (hkept' : base.KeptBy start)
    (hdistinct : ∀ pattern ∈ before ++ inner ++ after, ∀ node ∈ pattern.nodes, node.StepsDistinct)
    (hinner : inner ≠ []) (hcommon : common.WellFormed) (hlater : later.KeptBy common)
    (hlast : last.KeptBy common)
    (hnested : ((or (before ++ or inner innerSpan :: after) span).compile options expected).Yields
      pool nested later)
    (hflat : ((or (before ++ inner ++ after) flatSpan).compile options expected).Yields start flat
      last) : nested.Flattens before.length inner.length flat := by
  obtain ⟨-, -, hnestedNonempty, certificate, findings, middle, hnested⟩ :=
    exists_compilesTo_of_or hpool (hkept.contains hknown) hnested
  obtain ⟨-, -, hflatNonempty, otherCertificate, otherFindings, otherMiddle, hflat⟩ :=
    exists_compilesTo_of_or hstart (hkept'.contains hknown) hflat
  exact hnested.flattens hbase hknown hpool hkept hstart hkept' hdistinct hflat
    (hnested.environment_eq hbase hknown hpool hkept hstart hkept' hcommon hlater hlast
      hnestedNonempty hflatNonempty hflat (bindingsFirst_flatten hinner) fun name => bindsAt_flatten)

/-- Over a type of the pool the flat form of what compiles does so too. -/
theorem exists_flat_of_known (flatSpan : Span) (hpool : pool.WellFormed)
    (hknown : pool.contains expected) (hmany : 2 ≤ inner.length)
    (hdistinct : ∀ pattern ∈ before ++ inner ++ after, ∀ node ∈ pattern.nodes, node.StepsDistinct)
    (hascribed : ∀ pattern ∈ before ++ inner ++ after, pattern.AscriptionsKnown pool)
    (hnested : ((or (before ++ or inner innerSpan :: after) span).compile options expected).Yields
      pool nested later) :
    ∃ flat last, ((or (before ++ inner ++ after) flatSpan).compile options expected).Yields later flat
      last ∧ nested.Flattens before.length inner.length flat := by
  have hwell := compile_sound hpool hknown
    (ascriptionsKnown_or span (ascriptionsKnown_flatten hascribed)) hnested
  obtain ⟨hlater, hkept, -⟩ := exists_compilesTo_of_or hpool hknown hnested
  obtain ⟨flat, last, hflat⟩ := exists_compile_of_kept hpool hlater hkept hknown
    (stepsDistinct_or_iff.mpr hdistinct) hwell.flatten
  obtain ⟨hlast, hkept', -⟩ := exists_compilesTo_of_or hlater (hkept.contains hknown) hflat
  exact ⟨flat, last, hflat, flattens_of_compile hpool hknown hpool (.refl pool) hlater hkept hdistinct
    (List.ne_nil_of_length_pos (by omega)) hlast hkept' (.refl last) hnested hflat⟩

/-- Over a type of the pool what compiles in its flat form does so in the nested one
    too, without ascriptions in the nested or-pattern. -/
theorem exists_nested_of_known (span innerSpan : Span) (hpool : pool.WellFormed)
    (hknown : pool.contains expected) (hmany : 2 ≤ inner.length) (hothers : before ++ after ≠ [])
    (hdistinct : ∀ pattern ∈ before ++ inner ++ after, ∀ node ∈ pattern.nodes, node.StepsDistinct)
    (hascribed : ∀ pattern ∈ before ++ inner ++ after, pattern.AscriptionsKnown pool)
    (hunascribed : ∀ choice ∈ inner, choice.Unascribed)
    (hflat : ((or (before ++ inner ++ after) flatSpan).compile options expected).Yields pool flat
      later) :
    (∃ nested last,
      ((or (before ++ or inner innerSpan :: after) span).compile options expected).Yields pool nested
        last) ∧
    ∃ nested last,
      ((or (before ++ or inner innerSpan :: after) span).compile options expected).Yields later nested
        last ∧ nested.Flattens before.length inner.length flat := by
  have hwell := compile_sound hpool hknown (ascriptionsKnown_or flatSpan hascribed) hflat
  obtain ⟨hlater, hkept, -⟩ := exists_compilesTo_of_or hpool hknown hflat
  have hcompile : ∀ {start : Pool}, start.WellFormed → pool.KeptBy start → ∃ nested last,
      ((or (before ++ or inner innerSpan :: after) span).compile options expected).Yields start nested
        last := fun hstart hkept' =>
    exists_compile_of_kept hpool hstart hkept' hknown
      (stepsDistinct_or_iff.mpr (stepsDistinct_flatten hdistinct))
      (hwell.unflatten hmany hothers hunascribed)
  refine ⟨hcompile hpool (.refl pool), ?_⟩
  obtain ⟨nested, last, hnested⟩ := hcompile hlater hkept
  obtain ⟨hlast, hkept', -⟩ := exists_compilesTo_of_or hlater (hkept.contains hknown) hnested
  exact ⟨nested, last, hnested, flattens_of_compile hpool hknown hlater hkept hpool (.refl pool)
    hdistinct (List.ne_nil_of_length_pos (by omega)) hlast (.refl last) hkept' hnested hflat⟩

/-- A nested or-pattern agrees with its flat form: if it compiles, the flat form does
    so next, with the same environment, and for every value, typed or not, either
    both refuse it or they select alternatives that belong together and bind the
    same. What compiles in its flat form does so in the nested one as well, unless
    a binding in the nested or-pattern has an ascription. -/
theorem compile_nested_agrees_with_flat {scrutinee : Ty} (hpool : pool.Reachable)
    (hmany : 2 ≤ inner.length) (hothers : before ++ after ≠ [])
    (hdistinct : ∀ pattern ∈ before ++ inner ++ after, ∀ node ∈ pattern.nodes, node.StepsDistinct)
    (hascribed : ∀ pattern ∈ before ++ inner ++ after, pattern.AscriptionsKnown pool) :
    (∀ nested later,
      ((or (before ++ or inner innerSpan :: after) span).compile options scrutinee).runOn pool =
        (.ok nested, later) →
      ∃ flat last,
        ((or (before ++ inner ++ after) flatSpan).compile options scrutinee).runOn later =
          (.ok flat, last) ∧
        nested.Flattens before.length inner.length flat) ∧
    ∀ flat later,
      ((or (before ++ inner ++ after) flatSpan).compile options scrutinee).runOn pool =
        (.ok flat, later) →
      (∀ choice ∈ inner, choice.Unascribed) →
      (∃ nested last,
        ((or (before ++ or inner innerSpan :: after) span).compile options scrutinee).runOn pool =
          (.ok nested, last)) ∧
      ∃ nested last,
        ((or (before ++ or inner innerSpan :: after) span).compile options scrutinee).runOn later =
          (.ok nested, last) ∧
        nested.Flattens before.length inner.length flat := by
  have hwell := hpool.wellFormed
  by_cases hknown : pool.contains scrutinee
  · exact ⟨fun nested later hnested =>
        exists_flat_of_known flatSpan hwell hknown hmany hdistinct hascribed hnested,
      fun flat later hflat hunascribed => exists_nested_of_known span innerSpan hwell hknown hmany
        hothers hdistinct hascribed hunascribed hflat⟩
  -- What compiles over a type that the pool does not hold does so on every pool, so
  -- the pool may be made to hold it.
  · obtain ⟨padded, hgrows, hpadded⟩ := pool.exists_grows_contains scrutinee
    obtain ⟨hpaddedWell, hkept⟩ := hgrows.keeps hwell
    have hpaddedAscribed : ∀ pattern ∈ before ++ inner ++ after, pattern.AscriptionsKnown padded :=
      fun pattern hmem name ascribed place hnode =>
        hkept.contains (hascribed pattern hmem name ascribed place hnode)
    refine ⟨fun nested later hnested => ?_, fun flat later hflat hunascribed => ?_⟩
    · have hbare := bare_of_compile hwell hknown
        (ascriptionsKnown_or span (ascriptionsKnown_flatten hascribed)) hnested
      have hflatBare := (bare_flatten_iff span innerSpan flatSpan).mp hbare
      obtain ⟨flat, last, hflat, hagrees⟩ := exists_flat_of_known flatSpan hpaddedWell hpadded hmany
        hdistinct hpaddedAscribed (hbare.ignoresPool_compile.yields hnested padded)
      exact ⟨flat, later, hflatBare.ignoresPool_compile.yields hflat later, hagrees⟩
    · have hbare := bare_of_compile hwell hknown (ascriptionsKnown_or flatSpan hascribed) hflat
      have hnestedBare := (bare_flatten_iff span innerSpan flatSpan).mpr hbare
      obtain ⟨-, nested, last, hnested, hagrees⟩ := exists_nested_of_known span innerSpan hpaddedWell
        hpadded hmany hothers hdistinct hpaddedAscribed hunascribed
        (hbare.ignoresPool_compile.yields hflat padded)
      have hyields := hnestedBare.ignoresPool_compile.yields hnested
      exact ⟨⟨nested, pool, hyields pool⟩, nested, later, hyields later, hagrees⟩

/-- Three variants, of which the last two stand in a nested or-pattern: a value of
    the last one selects the second alternative of the nested form and the third of
    the flat one. -/
theorem compile_nested_agrees_with_flat_of_variants :
    let pool := (Pool.initial.declareEnum ⟨1⟩ none [(⟨2⟩, .i8), (⟨3⟩, .i16), (⟨4⟩, .i32)]).2
    let choice := fun tag => variant tag (bind ⟨5⟩ none Span.none) Span.none
    let nestedForm := or [choice ⟨2⟩, or [choice ⟨3⟩, choice ⟨4⟩] Span.none] Span.none
    let flatForm := or [choice ⟨2⟩, choice ⟨3⟩, choice ⟨4⟩] Span.none
    let value := Value.variant ⟨4⟩ (.int 5)
    (∃ nested later flat last, (nestedForm.compile {} ⟨11⟩).runOn pool = (.ok nested, later) ∧
      (flatForm.compile {} ⟨11⟩).runOn later = (.ok flat, last) ∧ nested.Flattens 1 2 flat ∧
      (nested.procedure.select value).map Selection.alternative = some 1) ∧
    ∃ flat later nested last, (flatForm.compile {} ⟨11⟩).runOn pool = (.ok flat, later) ∧
      (nestedForm.compile {} ⟨11⟩).runOn later = (.ok nested, last) ∧ nested.Flattens 1 2 flat ∧
      (flat.procedure.select value).map Selection.alternative = some 2 := by
  intro pool choice nestedForm flatForm value
  have hpool : pool.Reachable := (Pool.Grows.refl Pool.initial).declareEnum ⟨1⟩ none
    [(⟨2⟩, .i8), (⟨3⟩, .i16), (⟨4⟩, .i32)] nofun (by decide)
  have hnodes : ∀ pattern ∈ [choice ⟨2⟩] ++ [choice ⟨3⟩, choice ⟨4⟩] ++ [], ∀ node ∈ pattern.nodes,
      node.StepsDistinct ∧ ∀ name ascribed span, node ≠ bind name (some ascribed) span := by
    intro pattern hmem node hnode
    obtain rfl | rfl | rfl : pattern = choice ⟨2⟩ ∨ pattern = choice ⟨3⟩ ∨ pattern = choice ⟨4⟩ := by
      simpa using hmem
    all_goals
      simp only [choice, nodes, List.mem_cons, List.not_mem_nil, or_false] at hnode
      obtain rfl | rfl := hnode <;> exact ⟨trivial, fun _ _ _ heq => by cases heq⟩
  have hmany : 2 ≤ [choice ⟨3⟩, choice ⟨4⟩].length := Nat.le_refl 2
  have hothers : [choice ⟨2⟩] ++ [] ≠ [] := List.cons_ne_nil _ _
  have hdistinct := fun pattern hmem node hnode => (hnodes pattern hmem node hnode).1
  have hunascribed : ∀ pattern ∈ [choice ⟨2⟩] ++ [choice ⟨3⟩, choice ⟨4⟩] ++ [], pattern.Unascribed :=
    fun pattern hmem name ascribed span hnode => (hnodes pattern hmem _ hnode).2 name ascribed span rfl
  have hascribed : ∀ pattern ∈ [choice ⟨2⟩] ++ [choice ⟨3⟩, choice ⟨4⟩] ++ [],
      pattern.AscriptionsKnown pool := fun pattern hmem name ascribed span hnode =>
    absurd hnode (hunascribed pattern hmem name ascribed span)
  constructor
  · have hresult : ((nestedForm.compile {} ⟨11⟩).runOn pool).1.toOption.map (fun nested =>
        (nested.procedure.select value).map Selection.alternative) = some (some 1) := by decide +kernel
    obtain ⟨nested, later, hnested, hselect⟩ := exists_yields_of_view hresult
    obtain ⟨flat, last, hflat, hagrees⟩ :=
      (compile_nested_agrees_with_flat hpool hmany hothers hdistinct hascribed).1 nested later hnested
    exact ⟨nested, later, flat, last, hnested, hflat, hagrees, hselect⟩
  · have hresult : ((flatForm.compile {} ⟨11⟩).runOn pool).1.toOption.map (fun flat =>
        (flat.procedure.select value).map Selection.alternative) = some (some 2) := by decide +kernel
    obtain ⟨flat, later, hflat, hselect⟩ := exists_yields_of_view hresult
    obtain ⟨-, nested, last, hnested, hagrees⟩ :=
      (compile_nested_agrees_with_flat hpool hmany hothers hdistinct hascribed).2 flat later hflat
        fun choice hmem => hunascribed choice (List.mem_cons_of_mem _ hmem)
    exact ⟨flat, later, nested, last, hflat, hnested, hagrees, hselect⟩

end Pattern

end OrPattern
