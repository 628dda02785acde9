import OrPattern.Proofs.Select.Arranged
import OrPattern.Proofs.Select.Leftmost

namespace OrPattern

variable {options : Options} {pool later : Pool} {root value : Value}

namespace Pattern

theorem leftmost_eq_some {alternatives : List Pattern} {index : Nat}
    {captured : List (Name × Value)} (hleftmost : leftmost value alternatives = some (index, captured)) :
    ∃ chosen, alternatives[index]? = some chosen ∧ chosen.captures value = some captured ∧
      ∀ earlier other, earlier < index → alternatives[earlier]? = some other →
        other.accepts value = false := by
  induction alternatives generalizing index with
  | nil => cases hleftmost
  | cons first rest ih =>
    simp only [leftmost] at hleftmost
    split at hleftmost
    · next found hfound =>
      cases hleftmost
      exact ⟨first, rfl, hfound, fun earlier _ hlt _ => absurd hlt (Nat.not_lt_zero earlier)⟩
    · next hrefuses =>
      obtain ⟨⟨offset, found⟩, hfound, heq⟩ := Option.map_eq_some_iff.mp hleftmost
      cases heq
      obtain ⟨chosen, hchosen, hcaptures, hearlier⟩ := ih hfound
      refine ⟨chosen, hchosen, hcaptures, fun earlier other hlt hother => ?_⟩
      cases earlier with
      | zero =>
        cases hother
        rw [← isSome_captures, hrefuses, Option.isSome_none]
      | succ earlier => exact hearlier earlier other (Nat.lt_of_succ_lt_succ hlt) hother

theorem leftmost_isSome (pattern : Pattern) :
    (leftmost value pattern.alternatives).isSome = pattern.accepts value := by
  have hany : (leftmost value pattern.alternatives).isSome =
      acceptsAny pattern.alternatives value := by
    rw [← isSome_capturesFirst, ← leftmost_map_snd, Option.isSome_map]
  rw [hany]
  cases pattern with
  | or choices span => rw [alternatives, accepts]
  | wildcard | bind | literal | variant | tuple | record =>
    simp only [alternatives, acceptsAny, Bool.or_false]

/-- A compiled pattern accepts the values that the pattern accepts, selects the
    leftmost alternative that does, and binds the names of the environment, in
    its order, to what that alternative captures. Each of these values is the
    component at the one path of its name. -/
theorem compile_selects_leftmost {pattern : Pattern} {scrutinee : Ty} {compiled : Compiled}
    (hpool : pool.Reachable) (hknown : pool.contains scrutinee)
    (hdistinct : ∀ node ∈ pattern.nodes, node.StepsDistinct)
    (hcompile : (pattern.compile options scrutinee).runOn pool = (.ok compiled, later))
    (hshaped : value.Shaped pool scrutinee) :
    (compiled.procedure.select value).isSome = pattern.accepts value ∧
    ∀ selection, compiled.procedure.select value = some selection →
      (∃ chosen captured, pattern.alternatives[selection.alternative]? = some chosen ∧
        chosen.captures value = some captured ∧
        (selection.bindings.map fun bound => (bound.name, bound.value)).Perm captured) ∧
      (∀ earlier other, earlier < selection.alternative →
        pattern.alternatives[earlier]? = some other → other.accepts value = false) ∧
      selection.bindings.map BoundValue.name = compiled.environment.names ∧
      selection.bindings.map (fun bound => (bound.name, some bound.value)) =
        pattern.bindings.map fun binding => (binding.1, value.at? binding.2) := by
  have hwell := hpool.wellFormed
  obtain ⟨-, certificate, findings, middle, hcompiles⟩ := compile_yields_iff.mp hcompile
  have hinner : ∀ choice ∈ pattern.alternatives, ∀ node ∈ choice.nodes, node.StepsDistinct :=
    fun _ hmem => forall_nodes_of_alternative hdistinct hmem
  have hagrees := hcompiles.agrees hwell hknown hinner hshaped
  obtain ⟨-, hagree, hnodes⟩ := certify_sound hcompiles.certified
  refine ⟨?_, fun selection hselect => ?_⟩
  · rw [← leftmost_isSome]
    generalize compiled.procedure.select value = selection at hagrees
    generalize leftmost value pattern.alternatives = choice at hagrees
    cases hagrees <;> rfl
  · rw [hselect] at hagrees
    generalize hleftmost : leftmost value pattern.alternatives = choice at hagrees
    cases hagrees with
    | @some _ choice hchoice =>
      obtain ⟨index, captured⟩ := choice
      obtain ⟨halternative, hperm⟩ := hchoice
      rw [Nat.zero_add] at halternative
      obtain ⟨chosen, hchosen, hcaptures, hearlier⟩ := leftmost_eq_some hleftmost
      have hplaces : (selection.bindings.map fun bound => (bound.name, some bound.value)).Perm
          ((bindingsFirst pattern.alternatives).map fun binding => (binding.1, value.at? binding.2)) := by
        have hmem := List.mem_of_getElem? hchosen
        have hpairs := hperm.map fun entry => (entry.1, some entry.2)
        rw [BoundValue.pairs, List.map_map] at hpairs
        exact hpairs.trans (hagree.captures_perm hmem (hinner chosen hmem) (hnodes chosen hmem)
          hcaptures)
      obtain ⟨hnames, hbindings⟩ := hcompiles.bindings_of_select hselect hplaces
      rw [bindingsFirst_alternatives] at hbindings
      rw [halternative]
      exact ⟨⟨chosen, captured, hchosen, hcaptures, hperm⟩, hearlier, hnames, hbindings⟩

/-- Two variants that bind one name: a value of the second selects the second
    alternative, with its payload. -/
theorem compile_selects_leftmost_of_variants :
    let pool := (Pool.initial.declareEnum ⟨1⟩ none [(⟨2⟩, .i32), (⟨3⟩, .i32)]).2
    let alternatives := [variant ⟨2⟩ (bind ⟨4⟩ none Span.none) Span.none,
      variant ⟨3⟩ (bind ⟨4⟩ none Span.none) Span.none]
    ∃ compiled later selection,
      ((or alternatives Span.none).compile {} ⟨11⟩).runOn pool = (.ok compiled, later) ∧
        compiled.procedure.select (.variant ⟨3⟩ (.int 5)) = some selection ∧
          selection.bindings.map (fun bound => (bound.name, some bound.value)) =
            [(⟨4⟩, some (.int 5))] := by
  intro pool alternatives
  have hpool : pool.Reachable := (Pool.Grows.refl Pool.initial).declareEnum ⟨1⟩ none
    [(⟨2⟩, .i32), (⟨3⟩, .i32)] nofun (by decide)
  have hdistinct : ∀ node ∈ (or alternatives Span.none).nodes, node.StepsDistinct := by
    intro node hnode
    simp only [alternatives, nodes, nodesList, List.cons_append, List.nil_append, List.append_nil,
      List.mem_cons, List.not_mem_nil, or_false] at hnode
    obtain rfl | rfl | rfl | rfl | rfl := hnode <;> exact trivial
  have hpayload : (Value.int 5).Shaped pool .i32 := .other rfl rfl rfl
  have hshaped : (Value.variant ⟨3⟩ (.int 5)).Shaped pool ⟨11⟩ := .variant rfl rfl hpayload
  obtain ⟨compiled, later, hcompile⟩ : ∃ compiled later,
      ((or alternatives Span.none).compile {} ⟨11⟩).runOn pool = (.ok compiled, later) :=
    ⟨_, _, rfl⟩
  obtain ⟨haccepts, hselects⟩ :=
    compile_selects_leftmost hpool (by decide) hdistinct hcompile hshaped
  obtain ⟨selection, hselect⟩ := Option.isSome_iff_exists.mp haccepts
  exact ⟨compiled, later, selection, hcompile, hselect, (hselects selection hselect).2.2.2⟩

end Pattern

end OrPattern
