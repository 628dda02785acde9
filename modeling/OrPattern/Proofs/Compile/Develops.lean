import OrPattern.Proofs.Compile.Batch

namespace OrPattern

open Attempt

namespace Pool

/-- One pool develops into another by declarations, tuples, records, joins and
    compilations, each on types that are already there. A compilation that fails
    counts as well: it may have entered types before. -/
inductive Develops (start : Pool) : Pool → Prop where
  | refl : Develops start start
  | declareClass {pool : Pool} (developed : Develops start pool) (name : Name)
      (parent : Option Ty) (known : ∀ type ∈ parent, pool.contains type) :
      Develops start (pool.declareClass name parent).2
  | declareEnum {pool : Pool} (developed : Develops start pool) (name : Name)
      (parent : Option Ty) (variants : List (Name × Ty))
      (known : ∀ type ∈ parent, pool.contains type)
      (payloads : ∀ variant ∈ variants, pool.contains variant.2) :
      Develops start (pool.declareEnum name parent variants).2
  | tuple {pool : Pool} (developed : Develops start pool) (elements : List Ty)
      (known : ∀ type ∈ elements, pool.contains type) : Develops start (pool.tuple elements).2
  | record {pool : Pool} (developed : Develops start pool) (fields : List (Name × Ty))
      (known : ∀ field ∈ fields, pool.contains field.2) : Develops start (pool.record fields).2
  | join {pool : Pool} (developed : Develops start pool) (a b : Ty)
      (left : pool.contains a) (right : pool.contains b) : Develops start (pool.join a b).2
  | compile {pool : Pool} (developed : Develops start pool) (options : Options)
      (pattern : Pattern) (scrutinee : Ty) (ascribed : pattern.AscriptionsKnown pool)
      (known : pool.contains scrutinee) :
      Develops start ((pattern.compile options scrutinee).runOn pool).2

variable {start before pool later : Pool} {type a b : Ty}

/-- Growth and compilations keep a pool well formed and its entries in place. -/
theorem Develops.keeps (hdevelops : Develops start pool) (hstart : start.WellFormed) :
    pool.WellFormed ∧ start.KeptBy pool := by
  have hgrow : ∀ {pool later : Pool}, pool.WellFormed ∧ start.KeptBy pool → Grows pool later →
      later.WellFormed ∧ start.KeptBy later := fun hpool hgrows =>
    ⟨(hgrows.keeps hpool.1).1, hpool.2.trans (hgrows.keeps hpool.1).2⟩
  induction hdevelops with
  | refl => exact ⟨hstart, KeptBy.refl start⟩
  | declareClass _ name parent known ih =>
    exact hgrow ih ((Grows.refl _).declareClass name parent known)
  | declareEnum _ name parent variants known payloads ih =>
    exact hgrow ih ((Grows.refl _).declareEnum name parent variants known payloads)
  | tuple _ elements known ih => exact hgrow ih ((Grows.refl _).tuple elements known)
  | record _ fields known ih => exact hgrow ih ((Grows.refl _).record fields known)
  | join _ a b left right ih => exact hgrow ih ((Grows.refl _).join a b left right)
  | @compile pool _ options pattern scrutinee ascribed known ih =>
    have hitems : ItemsKnown pool [(pattern, scrutinee)] :=
      List.forall_mem_singleton.mpr ⟨ascribed, known⟩
    exact ⟨wellFormed_compileBatch options ih.1 (KeptBy.refl pool) hitems,
      ih.2.trans (pattern.extends_compile options scrutinee pool).kept⟩

theorem KeptBy.flags_eq (hkept : pool.KeptBy later) (hknown : pool.contains type) :
    later.flags type = pool.flags type := by
  have hlt : type.index < pool.entries.size := contains_iff.mp hknown
  simp only [flags, hkept (Array.getElem?_eq_getElem hlt), Array.getElem?_eq_getElem hlt]

/-- A join that is taken again in any later pool finds what it found, the types that
    it entered on the way included. -/
theorem WellFormed.join_again (hpool : pool.WellFormed) (hlater : later.WellFormed)
    (hkept : (pool.join a b).2.KeptBy later) (ha : pool.contains a) (hb : pool.contains b) :
    later.join a b = ((pool.join a b).1, later) := by
  let first := pool.join a b
  let again := later.join a b
  have hagain : later.Extends again.2 := extends_join later a b
  have hold : pool.KeptBy later := (extends_join pool a b).kept.trans hkept
  have htwins : Twins again.2 id pool later :=
    ⟨hpool, hlater, hold.embeds, hagain.unique hlater.unique⟩
  have halike : Alike again.2 id pool later first again :=
    htwins.endAlike_join ha hb (hkept.trans hagain.kept).embeds (KeptBy.refl again.2)
  have hsame : again.1 = first.1 := halike.result.trans (Option.map_id_apply ..)
  have hpools : again.2 = later := by
    refine hagain.kept.eq_of_contains fun type htype => ?_
    rcases halike.new type htype with hthere | ⟨origin, horigin, rfl⟩
    · exact hthere
    · exact hkept.contains horigin
  exact Prod.ext hsame hpools

/-- What a pool says about its types it says for good, however it goes on: how a
    type is made, its flags and parent, its parts as patterns see them, which
    literals are among its values, and how it is ordered. A join that was taken on
    the way is found again, or fails again, and enters nothing. -/
theorem develops_preserves_answers (hpool : Develops initial pool)
    (hlater : Develops pool later) :
    (∀ type, pool.contains type →
      later.contains type ∧
      later.form? type = pool.form? type ∧
      later.flags type = pool.flags type ∧
      later.parent? type = pool.parent? type ∧
      later.variants? type = pool.variants? type ∧
      later.elements? type = pool.elements? type ∧
      later.fields? type = pool.fields? type ∧
      ∀ literal, later.literalFits type literal = pool.literalFits type literal) ∧
    (∀ sub sup, pool.contains sub → pool.contains sup →
      later.isSubtype sub sup = pool.isSubtype sub sup) ∧
    ∀ (before : Pool) (a b : Ty), Develops initial before → before.contains a →
      before.contains b → Develops (before.join a b).2 pool →
      later.join a b = ((before.join a b).1, later) := by
  obtain ⟨hwell, -⟩ := hpool.keeps wellFormed_initial
  obtain ⟨hwell', hkept⟩ := hlater.keeps hwell
  refine ⟨fun type htype => ?_, fun sub sup hsub hsup => hwell.isSubtype_eq hwell' hkept hsub hsup,
    fun before a b hbefore ha hb hpool => ?_⟩
  · exact ⟨hkept.contains htype, hkept.form?_eq htype, hkept.flags_eq htype, hkept.parent?_eq htype,
      hkept.variants?_eq htype, hkept.elements?_eq htype, hkept.fields?_eq htype,
      hkept.literalFits_eq htype⟩
  · obtain ⟨hwellBefore, -⟩ := hbefore.keeps wellFormed_initial
    have hjoin := hwellBefore.joinsTo_join ha hb
    obtain ⟨-, hbetween⟩ := hpool.keeps hjoin.wellFormed
    exact hwellBefore.join_again hwell' (hbetween.trans hkept) ha hb

/-- Two tuples of tuples are joined without success, but the first elements join at a
    tuple that is new. A pattern that is rejected enters the join of two others. -/
theorem develops_preserves_answers_of_tuples :
    let tuples := ((initial.tuple [.i8, .i16]).2.tuple [.i16, .i8]).2
    let before := ((tuples.tuple [⟨11⟩, .bool]).2.tuple [⟨12⟩, .char]).2
    let pool := (before.join ⟨13⟩ ⟨14⟩).2
    let sum := ((pool.tuple [.i32, .i8]).2.declareEnum ⟨1⟩ none
      [(⟨2⟩, ⟨11⟩), (⟨3⟩, ⟨16⟩), (⟨4⟩, .bool)]).2
    let bound := Pattern.bind ⟨5⟩ none Span.none
    let rejected := Pattern.or [.variant ⟨2⟩ bound Span.none, .variant ⟨3⟩ bound Span.none,
      .variant ⟨4⟩ bound Span.none] Span.none
    let later := ((rejected.compile {} ⟨17⟩).runOn sum).2
    (before.join ⟨13⟩ ⟨14⟩).1 = none ∧ before.size < pool.size ∧ sum.size < later.size ∧
      later.join ⟨13⟩ ⟨14⟩ = (none, later) ∧
      later.isSubtype ⟨11⟩ ⟨15⟩ = pool.isSubtype ⟨11⟩ ⟨15⟩ := by
  intro tuples before pool sum bound rejected later
  have hbefore : Develops initial before :=
    (((Develops.refl.tuple [.i8, .i16] (by decide)).tuple [.i16, .i8] (by decide)).tuple
      [⟨11⟩, .bool] (by decide)).tuple [⟨12⟩, .char] (by decide)
  have hlater : Develops pool later := by
    refine ((Develops.refl.tuple [.i32, .i8] (by decide)).declareEnum ⟨1⟩ none _ nofun
      (by decide +kernel)).compile {} rejected ⟨17⟩ ?_ (by decide +kernel)
    intro name ascribed span hnode
    simp [rejected, bound, Pattern.nodes, Pattern.nodesList] at hnode
  have hjoin : (before.join ⟨13⟩ ⟨14⟩).1 = none := by decide +kernel
  obtain ⟨-, horder, hagain⟩ := develops_preserves_answers
    (hbefore.join ⟨13⟩ ⟨14⟩ (by decide) (by decide)) hlater
  refine ⟨hjoin, by decide +kernel, by decide +kernel, ?_,
    horder ⟨11⟩ ⟨15⟩ (by decide +kernel) (by decide +kernel)⟩
  exact (hagain before ⟨13⟩ ⟨14⟩ hbefore (by decide) (by decide) .refl).trans (by rw [hjoin])

end Pool

end OrPattern
