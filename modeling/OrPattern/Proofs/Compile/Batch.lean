import OrPattern.Proofs.Compile.Alike

namespace OrPattern

open Attempt Pool

/-- The scrutinees of a batch and the ascriptions in its patterns are types of the
    pool. -/
def ItemsKnown (pool : Pool) (items : List (Pattern × Ty)) : Prop :=
  ∀ item ∈ items, item.1.AscriptionsKnown pool ∧ pool.contains item.2

variable {options : Options} {common pool other base : Pool} {rename : Ty → Ty}
  {items others : List (Pattern × Ty)} {item : Pattern × Ty} {index : Nat}

theorem ItemsKnown.of_subset (hitems : ItemsKnown base items) (hsubset : others ⊆ items) :
    ItemsKnown base others :=
  fun item hmem => hitems item (hsubset hmem)

theorem compileBatch_cons (item : Pattern × Ty) (rest : List (Pattern × Ty)) (pool : Pool) :
    compileBatch options (item :: rest) pool =
      (((item.1.compile options item.2).runOn pool).1 ::
          (compileBatch options rest ((item.1.compile options item.2).runOn pool).2).1,
        (compileBatch options rest ((item.1.compile options item.2).runOn pool).2).2) := rfl

/-- Patterns are compiled alike from either pool, one after the other. -/
theorem endAlike_compileBatch (options : Options)
    (hfixed : ∀ type, base.contains type → rename type = type)
    (hitems : ItemsKnown base items) (hkept : base.KeptBy pool)
    (htwins : Twins common rename pool other) :
    EndAlike common rename pool other (compileBatch options items pool)
      (compileBatch options items other) := by
  induction items generalizing pool other with
  | nil => exact htwins.endAlike ([] : List (Except Rejection Compiled)) nofun
  | cons item rest ih =>
    obtain ⟨⟨hascribed, hscrutinee⟩, hrest⟩ := List.forall_mem_cons.mp hitems
    have hfirst := Pattern.mirrors_compile options hfixed hascribed hscrutinee hkept htwins
    rw [compileBatch_cons, compileBatch_cons]
    refine EndAlike.andThen hfirst (extends_compileBatch options rest _).kept
      (extends_compileBatch options rest _).kept fun halike => ?_
    rw [halike.result]
    refine (ih hrest (hkept.trans halike.kept) halike.twins).map _ _ rfl fun hkept hresults => ?_
    exact List.forall_mem_cons.mpr ⟨HasTypes.known_mono hkept halike.known, hresults⟩

theorem twins_self (hpool : pool.WellFormed) (hextends : pool.Extends common) :
    Twins common id pool pool :=
  ⟨hpool, hpool, (KeptBy.refl pool).embeds, hextends.unique hpool.unique⟩

/-- A batch leaves a well-formed pool, whether or not its patterns are rejected. -/
theorem wellFormed_compileBatch (options : Options) (hpool : pool.WellFormed)
    (hkept : base.KeptBy pool) (hitems : ItemsKnown base items) :
    (compileBatch options items pool).2.WellFormed := by
  have hextends := extends_compileBatch options items pool
  have halike := endAlike_compileBatch options (fun _ _ => rfl) hitems hkept
    (twins_self hpool hextends)
  exact (halike (KeptBy.refl _).embeds (KeptBy.refl _)).twins.wellFormed

/-- The result of an item is that of its pattern on the pool as the items before it
    leave it. -/
theorem compileBatch_getElem? (hitem : items[index]? = some item) :
    let before := (compileBatch options (items.take index) pool).2
    (compileBatch options items pool).1[index]? =
        some ((item.1.compile options item.2).runOn before).1 ∧
      ((item.1.compile options item.2).runOn before).2.KeptBy
        (compileBatch options items pool).2 := by
  induction items generalizing pool index with
  | nil => cases hitem
  | cons first rest ih =>
    cases index with
    | zero =>
      cases hitem
      exact ⟨rfl, (extends_compileBatch options rest _).kept⟩
    | succ index => exact ih hitem

/-- An item that is compiled again has the result it had, and no type is entered. -/
theorem compile_again (options : Options) (hpool : pool.WellFormed) (hitems : ItemsKnown pool items)
    (hitem : items[index]? = some item) :
    ∃ result, (compileBatch options items pool).1[index]? = some result ∧
      (item.1.compile options item.2).runOn (compileBatch options items pool).2 =
        (result, (compileBatch options items pool).2) := by
  let before := (compileBatch options (items.take index) pool).2
  let last := (compileBatch options items pool).2
  let first := (item.1.compile options item.2).runOn before
  let again := (item.1.compile options item.2).runOn last
  obtain ⟨hresult, hlater⟩ : (compileBatch options items pool).1[index]? = some first.1 ∧
    first.2.KeptBy last := compileBatch_getElem? hitem
  have hbefore : before.WellFormed := wellFormed_compileBatch options hpool (KeptBy.refl pool)
    (hitems.of_subset (List.take_subset index items))
  have hlast : last.WellFormed := wellFormed_compileBatch options hpool (KeptBy.refl pool) hitems
  have hfirst := item.1.extends_compile options item.2 before
  have hagain := item.1.extends_compile options item.2 last
  have htwins : Twins again.2 id before last :=
    ⟨hbefore, hlast, (hfirst.kept.trans hlater).embeds, hagain.unique hlast.unique⟩
  obtain ⟨hascribed, hscrutinee⟩ := hitems item (List.mem_of_getElem? hitem)
  have halike : Alike again.2 id before last first again :=
    Pattern.mirrors_compile options (fun _ _ => rfl) hascribed hscrutinee
      (extends_compileBatch options (items.take index) pool).kept htwins
      (hlater.trans hagain.kept).embeds (KeptBy.refl again.2)
  have hsame : again.1 = first.1 := halike.result.trans (Compiled.renameResult_id first.1)
  have hpools : again.2 = last := by
    refine hagain.kept.eq_of_contains fun type htype => ?_
    rcases halike.new type htype with hold | ⟨origin, horigin, rfl⟩
    · exact hold
    · exact hlater.contains horigin
  exact ⟨first.1, hresult, Prod.ext hsame hpools⟩

/-- So does any batch of such items. -/
theorem compileBatch_again (options : Options) (hpool : pool.WellFormed)
    (hitems : ItemsKnown pool items) (hothers : others ⊆ items) :
    compileBatch options others (compileBatch options items pool).2 =
      (others.map fun item =>
          ((item.1.compile options item.2).runOn (compileBatch options items pool).2).1,
        (compileBatch options items pool).2) := by
  induction others with
  | nil => rfl
  | cons item rest ih =>
    obtain ⟨hmem, hrest⟩ := List.cons_subset.mp hothers
    obtain ⟨index, hindex⟩ := List.mem_iff_getElem?.mp hmem
    obtain ⟨result, -, hagain⟩ := compile_again options hpool hitems hindex
    rw [compileBatch_cons, List.map_cons, hagain, ih hrest]

/-- On a pool into which they enter nothing, items have the results that they have on
    a pool that it grew out of, up to the numbers of the types entered there. -/
theorem compileBatch_embeds_of_still (options : Options) {last : Pool} (hpool : pool.WellFormed)
    (hlast : last.WellFormed) (hkept : pool.KeptBy last) (hitems : ItemsKnown pool items)
    (hstill : (compileBatch options items last).2 = last) :
    ∃ rename, EmbedsOver pool (compileBatch options items pool).2 last rename ∧
      (compileBatch options items last).1 =
        (compileBatch options items pool).1.map (renameResult rename (Compiled.rename rename)) := by
  obtain ⟨later, rename, hlater, hroom, hfixed, hembeds⟩ := exists_embedsOver
    (wellFormed_compileBatch options hpool (KeptBy.refl pool) hitems) hlast
    (extends_compileBatch options items pool).kept hkept
  have htwins : Twins later rename pool last :=
    ⟨hpool, hlast, hkept.embeds_of_fixed hpool hembeds.injective hfixed, hlater.unique⟩
  have halike := endAlike_compileBatch options hfixed hitems (KeptBy.refl pool) htwins
    hembeds (by rwa [hstill])
  have hlaterEmbeds := halike.twins.embeds
  rw [hstill] at hlaterEmbeds
  exact ⟨rename, ⟨hfixed, hlaterEmbeds⟩, halike.result⟩

/-- Whatever else is compiled and in whatever order, a pattern has the same result up
    to the numbers of the types that its batch enters, and the other batch enters
    them all. -/
theorem compileBatch_embeds (options : Options) (hpool : pool.WellFormed)
    (hothers : ItemsKnown pool others) (hsubset : items ⊆ others) :
    ∃ rename, EmbedsOver pool (compileBatch options items pool).2
        (compileBatch options others pool).2 rename ∧
      ∀ (index position : Nat) (item : Pattern × Ty), items[index]? = some item →
        others[position]? = some item →
        (compileBatch options others pool).1[position]? =
          ((compileBatch options items pool).1[index]?).map
            (renameResult rename (Compiled.rename rename)) := by
  let last := (compileBatch options others pool).2
  have hlast : last.WellFormed := wellFormed_compileBatch options hpool (KeptBy.refl pool) hothers
  -- On the pool that the other batch leaves, the items are compiled again.
  have hstays := compileBatch_again options hpool hothers hsubset
  obtain ⟨rename, hembeds, hrenamed⟩ := compileBatch_embeds_of_still options hpool hlast
    (extends_compileBatch options others pool).kept (hothers.of_subset hsubset) (by rw [hstays])
  have hrenamed : (items.map fun item => ((item.1.compile options item.2).runOn last).1) =
      (compileBatch options items pool).1.map (renameResult rename (Compiled.rename rename)) := by
    rw [← hrenamed, hstays]
  refine ⟨rename, hembeds, fun index position item hindex hposition => ?_⟩
  obtain ⟨result, hresult, hagain⟩ := compile_again options hpool hothers hposition
  calc (compileBatch options others pool).1[position]?
      = some result := hresult
    _ = (items.map fun item => ((item.1.compile options item.2).runOn last).1)[index]? := by
      rw [List.getElem?_map, hindex, Option.map_some, hagain]
    _ = ((compileBatch options items pool).1[index]?).map
          (renameResult rename (Compiled.rename rename)) := by rw [hrenamed, List.getElem?_map]

/-- Compilations that share a pool do not influence each other. In a batch each
    pattern has the result that it has on its own, but for the numbers of the types
    that are entered; every order of the batch gives the same results in this sense
    and enters the same types; and after the batch each pattern has its very result
    again, with no type entered. -/
theorem compileBatch_order_irrelevant (options : Options) (hpool : pool.Reachable)
    (hitems : ItemsKnown pool items) :
    let batch := compileBatch options items pool
    (∀ (index : Nat) (item : Pattern × Ty), items[index]? = some item →
      let alone := (item.1.compile options item.2).runOn pool
      ∃ rename, EmbedsOver pool alone.2 batch.2 rename ∧
        batch.1[index]? = some (renameResult rename (Compiled.rename rename) alone.1)) ∧
    (∀ others : List (Pattern × Ty), others.Perm items →
      let other := compileBatch options others pool
      other.2.size = batch.2.size ∧
      ∃ rename, EmbedsOver pool batch.2 other.2 rename ∧
        (∀ type, other.2.contains type → ∃ origin, batch.2.contains origin ∧ rename origin = type) ∧
        ∀ (index position : Nat) (item : Pattern × Ty), items[index]? = some item →
          others[position]? = some item →
          other.1[position]? =
            (batch.1[index]?).map (renameResult rename (Compiled.rename rename))) ∧
    ∀ (index : Nat) (item : Pattern × Ty), items[index]? = some item →
      ∃ result, batch.1[index]? = some result ∧
        (item.1.compile options item.2).runOn batch.2 = (result, batch.2) := by
  intro batch
  have hwell := hpool.wellFormed
  refine ⟨fun index item hitem => ?_, fun others hperm => ?_, fun index item hitem =>
    compile_again options hwell hitems hitem⟩
  · -- A pattern on its own is a batch with one item.
    have hmem := List.mem_of_getElem? hitem
    obtain ⟨rename, hembeds, hresults⟩ := compileBatch_embeds options hwell hitems
      (List.cons_subset.mpr ⟨hmem, List.nil_subset items⟩)
    exact ⟨rename, hembeds, hresults 0 index item rfl hitem⟩
  · have hothers := hitems.of_subset hperm.subset
    obtain ⟨rename, hembeds, hresults⟩ := compileBatch_embeds options hwell hothers hperm.symm.subset
    obtain ⟨_, hback, -⟩ := compileBatch_embeds options hwell hitems hperm.subset
    have hsize := Nat.le_antisymm hback.embeds.size_le hembeds.embeds.size_le
    exact ⟨hsize, rename, hembeds, fun type => hembeds.embeds.exists_origin hsize.symm, hresults⟩

/-- Two patterns over an enum of tuples, each of which enters a tuple: one for the
    name that it binds, the other before it is rejected. -/
theorem compileBatch_order_irrelevant_of_tuples :
    let tuples := (((initial.tuple [.i8, .i16]).2.tuple [.i16, .i8]).2.tuple [.i32, .i8]).2
    let pool := (tuples.declareEnum ⟨1⟩ none
      [(⟨2⟩, ⟨11⟩), (⟨3⟩, ⟨12⟩), (⟨4⟩, ⟨13⟩), (⟨5⟩, .bool)]).2
    let bound := Pattern.bind ⟨6⟩ none Span.none
    let accepted := Pattern.or [.variant ⟨2⟩ bound Span.none, .variant ⟨3⟩ bound Span.none] Span.none
    let rejected := Pattern.or [.variant ⟨2⟩ bound Span.none, .variant ⟨4⟩ bound Span.none,
      .variant ⟨5⟩ bound Span.none] Span.none
    let one := compileBatch {} [(accepted, ⟨14⟩), (rejected, ⟨14⟩)] pool
    let other := compileBatch {} [(rejected, ⟨14⟩), (accepted, ⟨14⟩)] pool
    one.2.size = 17 ∧ other.2.size = 17 ∧ ∃ rename, EmbedsOver pool one.2 other.2 rename ∧
      other.1[1]? = (one.1[0]?).map (renameResult rename (Compiled.rename rename)) := by
  intro tuples pool bound accepted rejected one other
  have hpool : pool.Reachable :=
    ((((Grows.refl initial).tuple [.i8, .i16] (by decide)).tuple [.i16, .i8] (by decide)).tuple
      [.i32, .i8] (by decide)).declareEnum ⟨1⟩ none _ nofun (by decide)
  have hitems : ItemsKnown pool [(accepted, ⟨14⟩), (rejected, ⟨14⟩)] := by
    refine List.forall_mem_cons.mpr ⟨⟨?_, by decide⟩, List.forall_mem_singleton.mpr ⟨?_, by decide⟩⟩
    all_goals
      intro name ascribed span hnode
      simp [accepted, rejected, bound, Pattern.nodes, Pattern.nodesList] at hnode
  obtain ⟨-, hperm, -⟩ := compileBatch_order_irrelevant {} hpool hitems
  obtain ⟨hsize, rename, hembeds, -, hresults⟩ := hperm _ (.swap ..)
  have hone : one.2.size = 17 := by decide +kernel
  exact ⟨hone, hsize.trans hone, rename, hembeds, hresults 0 1 _ rfl rfl⟩

end OrPattern
