import OrPattern.Proofs.Compile.Collected

namespace OrPattern

open Attempt

variable {options : Options} {base pool later : Pool} {context : CollectContext} {expected : Ty}
  {path : Path} {findings : Findings} {alternatives : List Pattern} {pattern : Pattern} {span : Span}
  {certificate : Certificate} {middle : Pool} {compiled : Compiled}

/-- The places of a name are summed up by one type. -/
def Settled (base later : Pool) (expected : Ty) (pattern : Pattern) (name : Name) : Prop :=
  ∃ ascription type, Summary later (pattern.BindsAt base expected name) ascription type ∧
    Admitted later (pattern.BindsAt base expected name)

theorem Settled.mono {name : Name} (hkept : pool.KeptBy later)
    (hsettled : Settled base pool expected pattern name) : Settled base later expected pattern name := by
  obtain ⟨ascription, type, hsummary, hadmitted⟩ := hsettled
  exact ⟨ascription, type, hsummary.mono hkept, hadmitted.mono hkept⟩

/-- What is known of a pattern that was collected from: its or-patterns are no
    degenerate ones and have settled their names, and its nodes fit the types at
    their places. -/
structure Laid (base later : Pool) (expected : Ty) (pattern : Pattern) : Prop where
  plural : ∀ node ∈ pattern.nodes, node.isOr → 2 ≤ node.alternatives.length
  fits : ∀ place node, Pattern.Reaches base expected pattern place node → node.Fits base place
  settled : ∀ place node, Pattern.Reaches base expected pattern place node → node.isOr →
    ∀ name ∈ node.names, Settled base later place node name

namespace Laid

theorem mono (hkept : pool.KeptBy later) (hlaid : Laid base pool expected pattern) :
    Laid base later expected pattern where
  plural := hlaid.plural
  fits := hlaid.fits
  settled place node hreaches hor name hname :=
    (hlaid.settled place node hreaches hor name hname).mono hkept

/-- A pattern without parts and alternatives has itself to look at only. -/
theorem of_leaf (hparts : pattern.parts = []) (hchoices : pattern.choices = [])
    (hleaf : ¬ pattern.isOr) (hfits : pattern.Fits base expected) :
    Laid base later expected pattern := by
  have hself : ∀ place node, Pattern.Reaches base expected pattern place node →
      place = expected ∧ node = pattern := by
    intro place node hreaches
    simpa [hparts, hchoices] using Pattern.reaches_iff.mp hreaches
  refine ⟨fun node hnode hor => ?_, fun place node hreaches => ?_, fun place node hreaches hor => ?_⟩
  · have hnode : node = pattern := by simpa [hparts, hchoices] using Pattern.mem_nodes_iff.mp hnode
    exact absurd (hnode ▸ hor) hleaf
  · obtain ⟨rfl, rfl⟩ := hself place node hreaches
    exact hfits
  · obtain ⟨rfl, rfl⟩ := hself place node hreaches
    exact absurd hor hleaf

theorem of_parts (hbranch : pattern.isBranch) (hfits : pattern.Fits base expected)
    (hparts : ∀ part ∈ pattern.parts, ∃ type, pattern.partType? base expected part.1 = some type ∧
      Laid base later type part.2) : Laid base later expected pattern := by
  have hleaf : ¬ pattern.isOr := by
    cases pattern with
    | or => cases hbranch
    | wildcard | bind | literal | variant | tuple | record => exact Bool.false_ne_true
  have hinner : ∀ place node, Pattern.Reaches base expected pattern place node →
      place = expected ∧ node = pattern ∨
        ∃ type part, Laid base later type part ∧ Pattern.Reaches base type part place node := by
    intro place node hreaches
    rcases (Pattern.reaches_branch_iff hbranch).mp hreaches with hself | ⟨part, hmem, type, htype, hrest⟩
    · exact .inl hself
    · obtain ⟨found, hfound, hlaid⟩ := hparts part hmem
      cases htype.symm.trans hfound
      exact .inr ⟨type, part.2, hlaid, hrest⟩
  refine ⟨fun node hnode hor => ?_, fun place node hreaches => ?_, fun place node hreaches hor => ?_⟩
  · rcases (Pattern.mem_nodes_branch_iff hbranch).mp hnode with rfl | ⟨part, hmem, hnode⟩
    · exact absurd hor hleaf
    · obtain ⟨type, -, hlaid⟩ := hparts part hmem
      exact hlaid.plural node hnode hor
  · rcases hinner place node hreaches with ⟨rfl, rfl⟩ | ⟨type, part, hlaid, hrest⟩
    · exact hfits
    · exact hlaid.fits place node hrest
  · rcases hinner place node hreaches with ⟨rfl, rfl⟩ | ⟨type, part, hlaid, hrest⟩
    · exact absurd hor hleaf
    · exact hlaid.settled place node hrest hor

theorem of_alternatives (hmany : 2 ≤ alternatives.length)
    (halternatives : ∀ pattern ∈ alternatives, Laid base later expected pattern)
    (hsettled : ∀ name ∈ (Pattern.or alternatives span).names,
      Settled base later expected (.or alternatives span) name) :
    Laid base later expected (.or alternatives span) := by
  refine ⟨fun node hnode hor => ?_, fun place node hreaches => ?_, fun place node hreaches hor => ?_⟩
  · rcases Pattern.mem_nodes_or_iff.mp hnode with rfl | ⟨choice, hmem, hnode⟩
    · exact hmany
    · exact (halternatives choice hmem).plural node hnode hor
  · rcases Pattern.reaches_or_iff.mp hreaches with ⟨rfl, rfl⟩ | ⟨choice, hmem, hrest⟩
    · exact trivial
    · exact (halternatives choice hmem).fits place node hrest
  · rcases Pattern.reaches_or_iff.mp hreaches with ⟨rfl, rfl⟩ | ⟨choice, hmem, hrest⟩
    · exact hsettled
    · exact (halternatives choice hmem).settled place node hrest hor

end Laid

/-- A compilation settles the names that its alternatives agree on. -/
theorem CompilesTo.settled (hbase : base.WellFormed) (hpool : pool.WellFormed)
    (hkept : base.KeptBy pool) (hknown : base.contains expected) (hnonempty : alternatives ≠ [])
    (hcompiles : CompilesTo options alternatives expected path span pool certificate findings middle
      compiled later) {name : Name} (hname : name ∈ (Pattern.or alternatives span).names) :
    Settled base later expected (.or alternatives span) name := by
  have hlisted : name ∈ compiled.environment.names := by
    rw [hcompiles.environment_names]
    exact hname
  obtain ⟨entry, hentry, rfl⟩ := List.mem_map.mp hlisted
  obtain ⟨hsummary, hadmitted⟩ := hcompiles.summary hbase hpool hkept hknown hnonempty entry hentry
  exact ⟨_, _, hsummary, hadmitted⟩

namespace Pattern

/-- Collecting from a pattern succeeds only if every node fits and every or-pattern
    in it settles its names. -/
theorem collect_laid (pattern : Pattern) (context : CollectContext) (expected : Ty) (path : Path)
    (pool : Pool) (findings : Findings) (later : Pool) (hbase : base.WellFormed)
    (hpool : pool.WellFormed) (hkept : base.KeptBy pool) (hknown : base.contains expected)
    (hcollect : (pattern.collect options context expected path).Yields pool findings later) :
    Laid base later expected pattern := by
  induction pattern using inductParts generalizing context expected path pool findings later with
  | wildcard span => exact .of_leaf rfl rfl Bool.false_ne_true trivial
  | bind name ascription span => exact .of_leaf rfl rfl Bool.false_ne_true trivial
  | literal value span =>
    obtain ⟨hfits, -⟩ := collect_literal_yields_iff.mp hcollect
    rw [hkept.literalFits_eq hknown] at hfits
    exact .of_leaf rfl rfl Bool.false_ne_true hfits
  | branch pattern hbranch ih =>
    obtain ⟨hfits, hparts⟩ := (collect_branch_yields_iff hbranch).mp hcollect
    refine .of_parts hbranch ((fits_iff hkept hknown pattern).mp hfits) fun part hmem => ?_
    obtain ⟨type, start, found, next, htype, hstart, hkept', hlater, hyields, -⟩ :=
      hparts.exists_step hpool (fun step type htype => partType?_known hpool htype) hmem
    rw [partType?_eq hkept hknown] at htype
    exact ⟨type, htype, (ih part hmem context type _ start found next hstart (hkept.trans hkept')
      (partType?_known hbase htype) hyields).mono hlater⟩
  | or alternatives span ih =>
    obtain ⟨hmany, certificate, inner, middle, compiled, sites, hcompiles, -, -⟩ :=
      collect_or_yields_iff.mp hcollect
    have hnonempty : alternatives ≠ [] := List.ne_nil_of_length_pos (by omega)
    obtain ⟨⟨hgrows, -⟩, hlast, -⟩ := hcompiles.grows hpool (hkept.contains hknown) hnonempty
    have hmiddle := hgrows.keeps hpool
    refine .of_alternatives hmany (fun pattern hmem => ?_) fun name hname =>
      hcompiles.settled hbase hpool hkept hknown hnonempty hname
    obtain ⟨offset, hoffset⟩ := List.mem_iff_getElem?.mp hmem
    obtain ⟨start, found, next, hstart, hkept', hlater, hyields, -⟩ :=
      exists_alternative_step hpool (hkept.contains hknown) hcompiles.collected hoffset
    exact (ih pattern hmem _ expected path start found next hstart (hkept.trans hkept') hknown
      hyields).mono (hlater.trans (hlast.keeps hmiddle.1).2)

/-- Names that a pattern settled in a pool that grew can be brought together. -/
theorem reconciles_of_settled (hbase : base.WellFormed) (hgrows : Pool.Grows base later)
    (hknown : base.contains expected) (hascribed : pattern.AscriptionsKnown base)
    (hagree : ∀ node ∈ pattern.nodes, node.ChoicesAgree)
    (hsettled : ∀ name ∈ pattern.names, Settled base later expected pattern name) (name : Name) :
    Reconciles base expected pattern name := by
  by_cases hname : name ∈ pattern.names
  · obtain ⟨hlater, hkept⟩ := hgrows.keeps hbase
    obtain ⟨ascription, type, hsummary, hadmitted⟩ := hsettled name hname
    refine ⟨fun ascribed place hplace => ?_, ?_⟩
    · rw [hbase.isSubtype_iff]
      exact (hadmitted ascribed place hplace).of_later hbase hkept (hplace.known hbase hknown)
        (hascribed.of_bindsAt hplace)
    · cases ascription with
      | none =>
        refine .inl ⟨hsummary.unascribed rfl, later, type, hgrows, fun place hplace => ?_⟩
        rw [hlater.isSubtype_iff]
        exact (hsummary.least rfl).above hlater place hplace
      | some upper =>
        obtain ⟨place, hplace⟩ := hsummary.stated upper rfl
        refine .inr ⟨upper, place, hplace, fun stated other hother => ?_⟩
        rw [hbase.isSubtype_iff]
        have hclaimed : base.contains (stated.getD other) := by
          cases stated with
          | none => exact hother.known hbase hknown
          | some ascribed => exact hascribed.of_bindsAt hother
        exact (hsummary.above upper rfl stated other hother).of_later hbase hkept hclaimed
          (hascribed.of_bindsAt hplace)
  · have hnone : ∀ stated type, ¬ BindsAt base expected pattern name stated type :=
      fun stated type hplace => hname (mem_names_of_bindsAt hagree hplace)
    refine ⟨fun ascribed type hplace => absurd hplace (hnone _ _), .inl ⟨fun stated type hplace =>
      absurd hplace (hnone _ _), base, .never, .refl base, fun type hplace => absurd hplace (hnone _ _)⟩⟩

/-- A pattern that compiles is well formed over the type it was compiled for. -/
theorem compile_sound (hbase : base.WellFormed) (hknown : base.contains expected)
    (hascribed : pattern.AscriptionsKnown base)
    (hcompile : (pattern.compile options expected).Yields base compiled later) :
    pattern.WellFormed base expected := by
  obtain ⟨hplural, certificate, findings, middle, hcompiles⟩ := compile_yields_iff.mp hcompile
  have hkept := Pool.KeptBy.refl base
  have hnonempty := alternatives_ne_nil hplural
  obtain ⟨⟨hgrows, -⟩, hlast, -⟩ := hcompiles.grows hbase hknown hnonempty
  obtain ⟨-, hchoices, hinner⟩ := certify_sound hcompiles.certified
  have hagree : ∀ node ∈ pattern.nodes, node.ChoicesAgree := by
    intro node hnode
    rcases eq_or_mem_nodes_of_alternative hnode with ⟨rfl, hor⟩ | ⟨choice, hmem, hnode⟩
    · cases node with
      | or alternatives span => exact hchoices
      | wildcard | bind | literal | variant | tuple | record => cases hor
    · exact hinner choice hmem node hnode
  have hlaidChoices : ∀ choice ∈ pattern.alternatives, Laid base later expected choice := by
    intro choice hmem
    obtain ⟨offset, hoffset⟩ := List.mem_iff_getElem?.mp hmem
    obtain ⟨start, found, next, hstart, hstep, hlater, hyields, -⟩ :=
      exists_alternative_step hbase hknown hcompiles.collected hoffset
    exact (choice.collect_laid _ _ _ start found next hbase hstart hstep hknown hyields).mono
      (hlater.trans (hlast.keeps (hgrows.keeps hbase).1).2)
  have hsettled : ∀ name ∈ pattern.names, Settled base later expected pattern name := by
    intro name hname
    rw [names, ← bindingsFirst_alternatives] at hname
    have hchosen := hcompiles.settled hbase hbase hkept hknown hnonempty hname
    rwa [Settled, bindsAt_or_alternatives] at hchosen
  have hlaid : Laid base later expected pattern := by
    cases pattern with
    | or alternatives span => exact .of_alternatives (hplural rfl) hlaidChoices hsettled
    | wildcard | bind | literal | variant | tuple | record =>
      exact hlaidChoices _ (List.mem_singleton_self _)
  have hreconciles := fun {place node} (hreaches : Reaches base expected pattern place node) =>
    reconciles_of_settled hbase (hgrows.trans hlast) (hreaches.known hbase hknown)
      (hascribed.of_subset hreaches.nodes_subset)
      (fun inner hmem => hagree inner (hreaches.nodes_subset hmem))
  refine ⟨⟨hlaid.plural, hagree, ?_, hlaid.fits, ?_⟩, hreconciles (.self _ _) hsettled⟩
  · rw [names, ← bindingsFirst_alternatives]
    exact hchoices.nodup_first
  · exact fun place node hreaches hor => hreconciles hreaches (hlaid.settled place node hreaches hor)

end Pattern

end OrPattern
