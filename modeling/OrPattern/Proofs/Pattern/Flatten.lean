import OrPattern.Proofs.Pattern.WellFormed

namespace OrPattern

namespace Pattern

variable {pool : Pool} {expected : Ty} {name : Name} {alternatives before inner after : List Pattern}
  {span innerSpan flatSpan : Span}

/-- An or-pattern in the place of its own alternatives binds the same names first. -/
theorem bindingsFirst_flatten (hinner : inner ≠ []) :
    bindingsFirst (before ++ or inner innerSpan :: after) = bindingsFirst (before ++ inner ++ after) := by
  obtain ⟨first, rest, rfl⟩ := List.exists_cons_of_ne_nil hinner
  cases before <;> rfl

/-- An or-pattern in the place of its own alternatives has the same places. -/
theorem bindsAt_flatten :
    BindsAt pool expected (or (before ++ or inner innerSpan :: after) span) name =
      BindsAt pool expected (or (before ++ inner ++ after) flatSpan) name := by
  funext ascription type
  simp only [eq_iff_iff, bindsAt_or_iff, List.mem_append, List.mem_cons]
  constructor
  · rintro ⟨pattern, hmem | rfl | hmem, hbinds⟩
    · exact ⟨pattern, .inl (.inl hmem), hbinds⟩
    · obtain ⟨choice, hchoice, hbinds⟩ := bindsAt_or_iff.mp hbinds
      exact ⟨choice, .inl (.inr hchoice), hbinds⟩
    · exact ⟨pattern, .inr hmem, hbinds⟩
  · rintro ⟨pattern, (hmem | hmem) | hmem, hbinds⟩
    · exact ⟨pattern, .inl hmem, hbinds⟩
    · exact ⟨_, .inr (.inl rfl), bindsAt_or_iff.mpr ⟨pattern, hmem, hbinds⟩⟩
    · exact ⟨pattern, .inr (.inr hmem), hbinds⟩

theorem stepsDistinct_flatten
    (hdistinct : ∀ pattern ∈ before ++ inner ++ after, ∀ node ∈ pattern.nodes, node.StepsDistinct) :
    ∀ pattern ∈ before ++ or inner innerSpan :: after,
      ∀ node ∈ pattern.nodes, node.StepsDistinct := by
  rw [List.forall_mem_append, List.forall_mem_append] at hdistinct
  obtain ⟨⟨hbefore, hinner⟩, hafter⟩ := hdistinct
  exact List.forall_mem_append.mpr
    ⟨hbefore, List.forall_mem_cons.mpr ⟨stepsDistinct_or_iff.mpr hinner, hafter⟩⟩

theorem ascriptionsKnown_or (span : Span)
    (hascribed : ∀ pattern ∈ alternatives, pattern.AscriptionsKnown pool) :
    (or alternatives span).AscriptionsKnown pool := by
  intro name ascribed place hnode
  rcases mem_nodes_or_iff.mp hnode with heq | ⟨pattern, hmem, hnode⟩
  · cases heq
  · exact hascribed pattern hmem name ascribed place hnode

theorem ascriptionsKnown_flatten
    (hascribed : ∀ pattern ∈ before ++ inner ++ after, pattern.AscriptionsKnown pool) :
    ∀ pattern ∈ before ++ or inner innerSpan :: after, pattern.AscriptionsKnown pool := by
  rw [List.forall_mem_append, List.forall_mem_append] at hascribed
  obtain ⟨⟨hbefore, hinner⟩, hafter⟩ := hascribed
  exact List.forall_mem_append.mpr
    ⟨hbefore, List.forall_mem_cons.mpr ⟨ascriptionsKnown_or innerSpan hinner, hafter⟩⟩

/-- Patterns that each bind what some alternative binds agree as the alternatives
    do. -/
theorem Agree.of_same {others : List Pattern} (hagree : Agree alternatives)
    (hothers : ∀ other ∈ others, other.names.Nodup ∧ ∃ pattern ∈ alternatives, ∀ binding,
      binding ∈ other.bindings ↔ binding ∈ pattern.bindings) : Agree others where
  unique other hother := (hothers other hother).1
  same one hone other hother binding := by
    obtain ⟨-, pattern, hpattern, hsame⟩ := hothers one hone
    obtain ⟨-, partner, hpartner, hpartnerSame⟩ := hothers other hother
    rw [hsame, hpartnerSame]
    exact hagree.same pattern hpattern partner hpartner binding

theorem Agree.of_subset {others : List Pattern} (hagree : Agree alternatives)
    (hsubset : others ⊆ alternatives) : Agree others :=
  hagree.of_same fun other hother =>
    ⟨hagree.unique other (hsubset hother), other, hsubset hother, fun _ => Iff.rfl⟩

theorem Agree.flatten (hagree : Agree (before ++ or inner innerSpan :: after))
    (hinner : Agree inner) : Agree (before ++ inner ++ after) := by
  have hown : ∀ pattern ∈ before ++ or inner innerSpan :: after, pattern.names.Nodup ∧
      ∃ other ∈ before ++ or inner innerSpan :: after, ∀ binding,
        binding ∈ pattern.bindings ↔ binding ∈ other.bindings :=
    fun pattern hmem => ⟨hagree.unique pattern hmem, pattern, hmem, fun _ => Iff.rfl⟩
  rw [List.forall_mem_append, List.forall_mem_cons] at hown
  obtain ⟨hbefore, -, hafter⟩ := hown
  refine hagree.of_same (List.forall_mem_append.mpr ⟨List.forall_mem_append.mpr ⟨hbefore, ?_⟩, hafter⟩)
  intro pattern hmem
  exact ⟨hinner.unique pattern hmem, or inner innerSpan, List.mem_append_right _ List.mem_cons_self,
    fun binding => (hinner.bindings_perm hmem).mem_iff⟩

theorem Agree.unflatten (hagree : Agree (before ++ inner ++ after)) (hinner : inner ≠ []) :
    Agree (before ++ or inner innerSpan :: after) := by
  obtain ⟨first, rest, rfl⟩ := List.exists_cons_of_ne_nil hinner
  have hown : ∀ pattern ∈ before ++ (first :: rest) ++ after, pattern.names.Nodup ∧
      ∃ other ∈ before ++ (first :: rest) ++ after, ∀ binding,
        binding ∈ pattern.bindings ↔ binding ∈ other.bindings :=
    fun pattern hmem => ⟨hagree.unique pattern hmem, pattern, hmem, fun _ => Iff.rfl⟩
  rw [List.forall_mem_append, List.forall_mem_append, List.forall_mem_cons] at hown
  obtain ⟨⟨hbefore, hfirst, -⟩, hafter⟩ := hown
  exact hagree.of_same
    (List.forall_mem_append.mpr ⟨hbefore, List.forall_mem_cons.mpr ⟨hfirst, hafter⟩⟩)

/-- An or-pattern lies over a type if its alternatives do and agree, and the types
    of each name can be brought together. -/
theorem liesOver_or_iff : (or alternatives span).LiesOver pool expected ↔
    2 ≤ alternatives.length ∧ Agree alternatives ∧
      (∀ choice ∈ alternatives, choice.LiesOver pool expected) ∧
      ∀ name, Reconciles pool expected (or alternatives span) name := by
  constructor
  · intro hlies
    exact ⟨hlies.plural _ (self_mem_nodes _) rfl, hlies.agree _ (self_mem_nodes _),
      fun choice hmem => hlies.choice hmem, hlies.choicesReconcile _ _ (.self _ _) rfl⟩
  · rintro ⟨hmany, hagree, hchoices, hreconciles⟩
    refine ⟨fun node hnode hor => ?_, fun node hnode => ?_, hagree.nodup_first,
      fun place node hreaches => ?_, fun place node hreaches hor => ?_⟩
    · rcases mem_nodes_or_iff.mp hnode with rfl | ⟨choice, hmem, hnode⟩
      · exact hmany
      · exact (hchoices choice hmem).plural node hnode hor
    · rcases mem_nodes_or_iff.mp hnode with rfl | ⟨choice, hmem, hnode⟩
      · exact hagree
      · exact (hchoices choice hmem).agree node hnode
    · rcases reaches_or_iff.mp hreaches with ⟨rfl, rfl⟩ | ⟨choice, hmem, hrest⟩
      · exact trivial
      · exact (hchoices choice hmem).fits place node hrest
    · rcases reaches_or_iff.mp hreaches with ⟨rfl, rfl⟩ | ⟨choice, hmem, hrest⟩
      · exact hreconciles
      · exact (hchoices choice hmem).choicesReconcile place node hrest hor

/-- An or-pattern that lies over a type is well formed over it. -/
theorem LiesOver.wellFormed (hlies : (or alternatives span).LiesOver pool expected) :
    (or alternatives span).WellFormed pool expected :=
  ⟨hlies, hlies.choicesReconcile _ _ (.self _ _) rfl⟩

/-- What is well formed stays so if the alternatives of an or-pattern stand in its
    place. -/
theorem WellFormed.flatten
    (hwell : (or (before ++ or inner innerSpan :: after) span).WellFormed pool expected) :
    (or (before ++ inner ++ after) flatSpan).WellFormed pool expected := by
  obtain ⟨-, hagree, hchoices, hreconciles⟩ := liesOver_or_iff.mp hwell.toLiesOver
  rw [List.forall_mem_append, List.forall_mem_cons] at hchoices
  obtain ⟨hbefore, hnested, hafter⟩ := hchoices
  obtain ⟨hmany, hinner, hinnerChoices, -⟩ := liesOver_or_iff.mp hnested
  have hlength : 2 ≤ (before ++ inner ++ after).length := by
    simp only [List.length_append]
    omega
  exact (liesOver_or_iff.mpr ⟨hlength, hagree.flatten hinner,
    List.forall_mem_append.mpr ⟨List.forall_mem_append.mpr ⟨hbefore, hinnerChoices⟩, hafter⟩,
    fun name => (hreconciles name).of_places bindsAt_flatten.symm⟩).wellFormed

/-- No binding in the pattern has an ascription. -/
def Unascribed (pattern : Pattern) : Prop :=
  ∀ name ascribed span, bind name (some ascribed) span ∉ pattern.nodes

theorem Unascribed.eq_none {pattern : Pattern} {ascription : Option Ty} {type : Ty}
    (hunascribed : pattern.Unascribed)
    (hbinds : BindsAt pool expected pattern name ascription type) : ascription = none := by
  obtain ⟨span, hreaches⟩ := hbinds
  cases ascription with
  | none => rfl
  | some ascribed => exact absurd hreaches.mem_nodes (hunascribed name ascribed span)

/-- Types that can be brought together can be so without some of them, if none of
    those that are left is stated. -/
theorem Reconciles.of_unascribed {pattern other : Pattern}
    (hreconciles : Reconciles pool expected other name)
    (hsubset : ∀ ascription type, BindsAt pool expected pattern name ascription type →
      BindsAt pool expected other name ascription type)
    (hnone : ∀ ascription type, BindsAt pool expected pattern name ascription type →
      ascription = none) : Reconciles pool expected pattern name := by
  refine ⟨fun ascribed type hbinds => ?_, .inl ⟨hnone, ?_⟩⟩
  · cases hnone _ _ hbinds
  · rcases hreconciles.settled with ⟨-, later, bound, hgrows, hbound⟩ | ⟨upper, place, -, habove⟩
    · exact ⟨later, bound, hgrows, fun type hbinds => hbound type (hsubset _ _ hbinds)⟩
    · exact ⟨pool, upper, .refl pool, fun type hbinds => habove none type (hsubset _ _ hbinds)⟩

/-- What is well formed stays so if some of the alternatives are put into an
    or-pattern of their own, unless one of them has an ascription. -/
theorem WellFormed.unflatten (hmany : 2 ≤ inner.length) (hothers : before ++ after ≠ [])
    (hunascribed : ∀ choice ∈ inner, choice.Unascribed)
    (hwell : (or (before ++ inner ++ after) flatSpan).WellFormed pool expected) :
    (or (before ++ or inner innerSpan :: after) span).WellFormed pool expected := by
  obtain ⟨-, hagree, hchoices, hreconciles⟩ := liesOver_or_iff.mp hwell.toLiesOver
  rw [List.forall_mem_append, List.forall_mem_append] at hchoices
  obtain ⟨⟨hbefore, hinnerChoices⟩, hafter⟩ := hchoices
  have hsubset : inner ⊆ before ++ inner ++ after := fun choice hmem =>
    List.mem_append_left _ (List.mem_append_right _ hmem)
  have hnested : (or inner innerSpan).LiesOver pool expected := by
    refine liesOver_or_iff.mpr ⟨hmany, hagree.of_subset hsubset, hinnerChoices, fun name => ?_⟩
    refine (hreconciles name).of_unascribed (fun ascription type hbinds => ?_)
      fun ascription type hbinds => ?_
    · obtain ⟨choice, hmem, hbinds⟩ := bindsAt_or_iff.mp hbinds
      exact bindsAt_or_iff.mpr ⟨choice, hsubset hmem, hbinds⟩
    · obtain ⟨choice, hmem, hbinds⟩ := bindsAt_or_iff.mp hbinds
      exact (hunascribed choice hmem).eq_none hbinds
  have hlength : 2 ≤ (before ++ or inner innerSpan :: after).length := by
    have hpos := List.length_pos_iff.mpr hothers
    simp only [List.length_append, List.length_cons] at hpos ⊢
    omega
  exact (liesOver_or_iff.mpr ⟨hlength, hagree.unflatten (List.ne_nil_of_length_pos (by omega)),
    List.forall_mem_append.mpr ⟨hbefore, List.forall_mem_cons.mpr ⟨hnested, hafter⟩⟩,
    fun name => (hreconciles name).of_places bindsAt_flatten⟩).wellFormed

end Pattern

end OrPattern
