import OrPattern.Proofs.Compile.Collected
import OrPattern.Proofs.Select.Binds

namespace OrPattern

variable {options : Options} {pool later : Pool} {root value : Value}

/-- Where every name is bound once, the names of arranged bindings stand in the
    order asked for. -/
theorem BoundValue.names_arrange {names : List Name} {bindings : List BoundValue}
    (hnodup : names.Nodup) (hperm : (bindings.map BoundValue.name).Perm names) :
    (arrange names bindings).map BoundValue.name = names := by
  induction names generalizing bindings with
  | nil => exact hperm.eq_nil
  | cons name names ih =>
    obtain ⟨hfresh, hnodup⟩ := List.nodup_cons.mp hnodup
    have hhead : ((bindings.map BoundValue.name).filter fun other => other = name).Perm [name] := by
      have hfilter := hperm.filter fun other => other = name
      have hnone : (names.filter fun other => other = name) = [] := by
        refine List.filter_eq_nil_iff.mpr fun other hother => ?_
        simpa using fun heq : other = name => hfresh (heq ▸ hother)
      rwa [List.filter_cons_of_pos (by simp), hnone] at hfilter
    have htail : ((bindings.map BoundValue.name).filter fun other => other ≠ name).Perm names := by
      have hfilter := hperm.filter fun other => other ≠ name
      have hall : (names.filter fun other => other ≠ name) = names := by
        refine List.filter_eq_self.mpr fun other hother => ?_
        simpa using fun heq : other = name => hfresh (heq ▸ hother)
      rwa [List.filter_cons_of_neg (by simp), hall] at hfilter
    simp only [List.filter_map, Function.comp_def] at hhead htail
    rw [arrange, List.map_append, ih hnodup htail]
    exact congrArg (· ++ names) hhead.eq_singleton

/-- Bindings of one name keep their order. -/
theorem BoundValue.filter_arrange (names : List Name) (bindings : List BoundValue) (name : Name) :
    (arrange names bindings).filter (fun bound => bound.name = name) =
      bindings.filter fun bound => bound.name = name := by
  induction names generalizing bindings with
  | nil => rfl
  | cons first names ih =>
    rw [arrange, List.filter_append, ih, List.filter_filter, List.filter_filter]
    by_cases hname : name = first
    · subst hname
      simp
    · have hapart : ∀ bound : BoundValue,
          (decide (bound.name = name) && decide (bound.name = first)) = false := by
        simp only [Bool.and_eq_false_iff, decide_eq_false_iff_not]
        grind
      have hother : ∀ bound : BoundValue,
          (decide (bound.name = name) && decide (bound.name ≠ first)) = decide (bound.name = name) := by
        grind
      simp only [hapart, hother, List.filter_false, List.nil_append]

/-- Bindings that differ only in how the names alternate are arranged alike, if all
    their names are asked for. -/
theorem BoundValue.arrange_eq_of_filter {names : List Name} {bindings others : List BoundValue}
    (hnames : ∀ bound ∈ bindings, bound.name ∈ names) (hperm : others.Perm bindings)
    (hfilter : ∀ name, others.filter (fun bound => bound.name = name) =
      bindings.filter fun bound => bound.name = name) :
    arrange names others = arrange names bindings := by
  induction names generalizing bindings others with
  | nil =>
    obtain rfl : bindings = [] := List.eq_nil_iff_forall_not_mem.mpr fun bound hmem =>
      List.not_mem_nil (hnames bound hmem)
    rw [hperm.eq_nil]
  | cons first names ih =>
    rw [arrange, arrange, hfilter]
    refine congrArg (_ ++ ·) (ih (fun bound hmem => ?_) (hperm.filter _) fun name => ?_)
    · obtain ⟨hmem, hne⟩ := List.mem_filter.mp hmem
      exact (List.mem_cons.mp (hnames bound hmem)).resolve_left (of_decide_eq_true hne)
    · rw [List.filter_comm, hfilter, List.filter_comm]

/-- Once arranged, bindings can be arranged anew. -/
theorem BoundValue.arrange_arrange {names : List Name} {bindings : List BoundValue}
    (hnames : ∀ bound ∈ bindings, bound.name ∈ names) (others : List Name) :
    arrange names (arrange others bindings) = arrange names bindings :=
  arrange_eq_of_filter hnames (arrange_perm others bindings) (filter_arrange others bindings)

/-- What a procedure selects is what one of its arms makes of the value. -/
theorem Procedure.mem_outcomes_of_select {procedure : Procedure} {selection : Selection}
    (hselect : procedure.select root = some selection) :
    some selection ∈ Arm.outcomes root procedure.names procedure.arms := by
  obtain ⟨arms, dispatch, names⟩ := procedure
  simp only [Procedure.select] at hselect
  cases hcandidates : dispatch.bind (·.candidates? root) with
  | none =>
    rw [hcandidates] at hselect
    obtain ⟨outcome, hmem, houtcome⟩ := List.exists_of_findSome?_eq_some hselect
    exact houtcome ▸ hmem
  | some candidates =>
    rw [hcandidates] at hselect
    obtain ⟨index, -, houtcome⟩ := List.exists_of_findSome?_eq_some hselect
    exact List.mem_of_getElem? (Option.join_eq_some_iff.mp houtcome)

/-- Whatever an arm yields is arranged by the names of its procedure. -/
theorem Arm.exists_arrange {names : List Name} {arms : List Arm} {selection : Selection}
    (hmem : some selection ∈ Arm.outcomes root names arms) :
    ∃ bindings, selection.bindings = BoundValue.arrange names bindings := by
  induction arms with
  | nil => cases hmem
  | cons arm rest ih =>
    obtain ⟨alternative, checks, slots⟩ := arm
    rcases List.mem_cons.mp hmem with hhead | hrest
    · split at hhead
      · cases hhead
        exact ⟨_, rfl⟩
      · cases hhead
    · exact ih hrest

/-- A procedure whose names are all bound once binds them in its own order. -/
theorem Procedure.names_of_select {procedure : Procedure} {selection : Selection}
    (hselect : procedure.select root = some selection) (hnodup : procedure.names.Nodup)
    (hperm : (selection.bindings.map BoundValue.name).Perm procedure.names) :
    selection.bindings.map BoundValue.name = procedure.names := by
  obtain ⟨bindings, harrange⟩ := Arm.exists_arrange (mem_outcomes_of_select hselect)
  rw [harrange] at hperm ⊢
  refine BoundValue.names_arrange hnodup (.trans ?_ hperm)
  exact ((BoundValue.arrange_perm _ bindings).map _).symm

namespace CompilesTo

variable {alternatives : List Pattern} {expected : Ty} {base : Path} {span : Span}
  {certificate : Certificate} {findings : Findings} {middle : Pool} {compiled : Compiled}

theorem procedure_names (hcompiles : CompilesTo options alternatives expected base span pool
    certificate findings middle compiled later) :
    compiled.procedure.names = compiled.environment.names := by
  obtain ⟨arms, -, hprocedure⟩ := Except.bind_eq_ok_iff.mp hcompiles.emitted
  rw [← Except.pure_eq_ok_iff.mp hprocedure]

/-- What is selected stands in the order of the environment, so bindings of the
    right names to the right values are those of the leftmost alternative, one
    by one. -/
theorem bindings_of_select (hcompiles : CompilesTo options alternatives expected base span pool
    certificate findings middle compiled later) {selection : Selection}
    (hselect : compiled.procedure.select root = some selection)
    (hperm : (selection.bindings.map fun bound => (bound.name, some bound.value)).Perm
      ((Pattern.bindingsFirst alternatives).map fun binding => (binding.1, value.at? binding.2))) :
    selection.bindings.map BoundValue.name = compiled.environment.names ∧
      selection.bindings.map (fun bound => (bound.name, some bound.value)) =
        (Pattern.bindingsFirst alternatives).map fun binding => (binding.1, value.at? binding.2) := by
  have hnames := hcompiles.environment_names
  have hnodup := hcompiles.names_nodup
  have hordered : selection.bindings.map BoundValue.name = compiled.environment.names := by
    have hpermNames := hperm.map Prod.fst
    rw [List.map_map, List.map_map] at hpermNames
    rw [← hcompiles.procedure_names] at hnodup hnames ⊢
    refine Procedure.names_of_select hselect hnodup ?_
    rw [hnames]
    exact hpermNames
  have hkeys : (selection.bindings.map fun bound => (bound.name, some bound.value)).map Prod.fst =
      compiled.environment.names := by
    rw [List.map_map]
    exact hordered
  refine ⟨hordered, eq_of_perm_of_keys hperm (hkeys.trans ?_) (hkeys.symm ▸ hnodup)⟩
  rw [List.map_map]
  exact hnames

end CompilesTo

end OrPattern
