import OrPattern.Proofs.Compile.Unknown

namespace OrPattern

open Attempt

variable {options : Options} {pool later : Pool} {expected : Ty} {pattern : Pattern}
  {entry : EnvironmentEntry}

/-- The type of an entry is the best one for all places of its name in the pattern,
    in whichever alternative and however deep they lie. Without any ascription it
    is the least type above the types of the places, in the pool that the entry
    was made in and in all that grow out of it; otherwise it is one of the
    ascriptions, and above all of them and the types of all places. -/
structure EnvironmentEntry.Principal (pool later : Pool) (expected : Ty) (pattern : Pattern)
    (entry : EnvironmentEntry) : Prop where
  inferred : (∀ ascription type,
      pattern.BindsAt pool expected entry.name ascription type → ascription = none) →
    entry.origin = .inferred ∧ ∀ last, Pool.Grows later last →
      (∀ type, pattern.BindsAt pool expected entry.name none type →
        last.isSubtype type entry.type) ∧
      ∀ bound, (∀ type, pattern.BindsAt pool expected entry.name none type →
        last.isSubtype type bound) → last.isSubtype entry.type bound
  ascribed : ∀ stated place, pattern.BindsAt pool expected entry.name (some stated) place →
    entry.origin = .ascribed ∧
      (∃ type, pattern.BindsAt pool expected entry.name (some entry.type) type) ∧
      ∀ ascription type, pattern.BindsAt pool expected entry.name ascription type →
        pool.isSubtype type entry.type ∧ ∀ other ∈ ascription, pool.isSubtype other entry.type

namespace EnvironmentEntry

theorem ascription_eq_none_iff : entry.ascription = none ↔ entry.origin = .inferred := by
  unfold ascription
  cases entry.origin <;> simp

theorem ascription_eq_some_iff {type : Ty} :
    entry.ascription = some type ↔ entry.origin = .ascribed ∧ entry.type = type := by
  unfold ascription
  cases entry.origin <;> simp

/-- What speaks for all places of its name is principal. -/
theorem Principal.of_summary (hpool : pool.WellFormed) (hlater : later.WellFormed)
    (hkept : pool.KeptBy later) (hknown : pool.contains expected)
    (hascribed : pattern.AscriptionsKnown pool)
    (hsummary : Summary later (pattern.BindsAt pool expected entry.name) entry.ascription entry.type)
    (hadmitted : Admitted later (pattern.BindsAt pool expected entry.name)) :
    entry.Principal pool later expected pattern := by
  have hbelow : ∀ {a b : Ty}, pool.contains a → pool.contains b → later.Below a b →
      pool.isSubtype a b := fun ha hb hab =>
    hpool.isSubtype_iff.mpr (hab.of_later hpool hkept ha hb)
  refine ⟨fun hnone => ?_, fun stated place hplace => ?_⟩
  · have hascription : entry.ascription = none := by
      cases hascription : entry.ascription with
      | none => rfl
      | some upper =>
        obtain ⟨type, hplace⟩ := hsummary.stated upper hascription
        exact hnone _ _ hplace
    refine ⟨ascription_eq_none_iff.mp hascription, fun last hgrows => ?_⟩
    obtain ⟨hlast, hkept'⟩ := hgrows.keeps hlater
    obtain ⟨habove, hleast⟩ := hsummary.least hascription last hlast hkept'
    simp only [hlast.isSubtype_iff]
    exact ⟨habove, hleast⟩
  · obtain ⟨upper, hupper, -⟩ := hsummary.exists_ascription hplace
    obtain ⟨horigin, rfl⟩ := ascription_eq_some_iff.mp hupper
    obtain ⟨own, hown⟩ := hsummary.stated _ hupper
    have hentry := hascribed.of_bindsAt hown
    refine ⟨horigin, ⟨own, hown⟩, fun ascription type hother => ?_⟩
    have htype := hother.known hpool hknown
    have habove := hsummary.above _ hupper ascription type hother
    cases ascription with
    | none => exact ⟨hbelow htype hentry habove, nofun⟩
    | some other =>
      have hotherKnown := hascribed.of_bindsAt hother
      have hstated : later.Below other entry.type := habove
      have hplaced := (hadmitted other type hother).trans hlater hstated
      refine ⟨hbelow htype hentry hplaced, fun stated hmem => ?_⟩
      rw [← Option.some.inj hmem]
      exact hbelow hotherKnown hentry hstated

/-- Over a type that the pool does not hold the type itself is the best. -/
theorem Principal.of_bare (hbare : pattern.Bare) (hname : entry.name ∈ pattern.names)
    (htype : entry.type = expected) (horigin : entry.origin = .inferred) :
    entry.Principal pool later expected pattern := by
  refine ⟨fun _ => ⟨horigin, fun last _ => ⟨fun type hplace => ?_, fun bound hbound => ?_⟩⟩,
    fun stated place hplace => ?_⟩
  · rw [htype, (hbare.of_bindsAt hplace).2]
    exact last.isSubtype_self expected
  · rw [htype]
    exact hbound expected (hbare.bindsAt hname)
  · cases (hbare.of_bindsAt hplace).1

end EnvironmentEntry

namespace Pattern

/-- The environment of a compiled pattern lists the names of the leftmost
    alternative, each once and in the order of the pattern, with a principal type
    each. -/
theorem compile_environment_principal {scrutinee : Ty} {compiled : Compiled} (hpool : pool.Reachable)
    (hascribed : pattern.AscriptionsKnown pool)
    (hcompile : (pattern.compile options scrutinee).runOn pool = (.ok compiled, later)) :
    compiled.environment.names = pattern.names ∧ compiled.environment.names.Nodup ∧
      ∀ entry ∈ compiled.environment.entries, entry.Principal pool later scrutinee pattern := by
  have hwell := hpool.wellFormed
  obtain ⟨hplural, certificate, findings, middle, hcompiles⟩ := compile_yields_iff.mp hcompile
  have hnames : compiled.environment.names = pattern.names := by
    rw [hcompiles.environment_names, bindingsFirst_alternatives, names]
  refine ⟨hnames, hcompiles.names_nodup, fun entry hmem => ?_⟩
  by_cases hknown : pool.contains scrutinee
  · have hnonempty := alternatives_ne_nil hplural
    obtain ⟨⟨hgrows, -⟩, hlast, -⟩ := hcompiles.grows hwell hknown hnonempty
    obtain ⟨hlater, hkept⟩ := (hgrows.trans hlast).keeps hwell
    obtain ⟨hsummary, hadmitted⟩ :=
      hcompiles.summary hwell hwell (.refl pool) hknown hnonempty entry hmem
    rw [bindsAt_or_alternatives] at hsummary hadmitted
    exact .of_summary hwell hlater hkept hknown hascribed hsummary hadmitted
  · have hbare := bare_of_compile hwell hknown hascribed hcompile
    obtain ⟨htype, horigin⟩ := hbare.uniform_compile hcompile entry hmem
    exact .of_bare hbare (hnames ▸ List.mem_map_of_mem hmem) htype horigin

/-- Two variants over pairs: the first name gets the wider of its two types, the
    second the ascription that stands in a nested or-pattern. -/
theorem compile_environment_principal_of_pairs :
    let pool := (((Pool.initial.tuple [.i8, .i8]).2.tuple [.i16, .i32]).2.declareEnum ⟨1⟩ none
      [(⟨2⟩, ⟨11⟩), (⟨3⟩, ⟨12⟩)]).2
    let inner := or [bind ⟨5⟩ none Span.none, bind ⟨5⟩ (some .i64) Span.none] Span.none
    let alternatives := [
      variant ⟨2⟩ (tuple [bind ⟨4⟩ none Span.none, inner] Span.none) Span.none,
      variant ⟨3⟩ (tuple [bind ⟨4⟩ none Span.none, bind ⟨5⟩ none Span.none] Span.none) Span.none]
    ∃ compiled later,
      ((or alternatives Span.none).compile {} ⟨13⟩).runOn pool = (.ok compiled, later) ∧
        compiled.environment.entries = [⟨⟨4⟩, .i16, .inferred⟩, ⟨⟨5⟩, .i64, .ascribed⟩] ∧
        ∀ entry ∈ compiled.environment.entries,
          entry.Principal pool later ⟨13⟩ (or alternatives Span.none) := by
  intro pool inner alternatives
  have hpool : pool.Reachable :=
    (((Pool.Grows.refl Pool.initial).tuple [.i8, .i8] (by decide)).tuple [.i16, .i32]
      (by decide)).declareEnum ⟨1⟩ none [(⟨2⟩, ⟨11⟩), (⟨3⟩, ⟨12⟩)] nofun (by decide)
  have hascribed : (or alternatives Span.none).AscriptionsKnown pool := by
    intro name ascribed span hnode
    simp only [alternatives, inner, nodes, nodesList, List.append_nil, List.cons_append,
      List.nil_append, List.mem_cons, List.not_mem_nil, or_false, reduceCtorEq, false_or, bind.injEq,
      Option.some.injEq, false_and, and_false] at hnode
    obtain ⟨-, rfl, -⟩ := hnode
    decide
  have hresult : (((or alternatives Span.none).compile {} ⟨13⟩).runOn pool).1.toOption.map
      (fun compiled => compiled.environment.entries) =
        some [⟨⟨4⟩, .i16, .inferred⟩, ⟨⟨5⟩, .i64, .ascribed⟩] := by decide +kernel
  obtain ⟨compiled, later, hcompile, hentries⟩ := exists_yields_of_view hresult
  obtain ⟨-, -, hprincipal⟩ := compile_environment_principal hpool hascribed hcompile
  exact ⟨compiled, later, hcompile, hentries, hprincipal⟩

end Pattern

end OrPattern
