import OrPattern.Proofs.Pattern.Captures
import OrPattern.Proofs.Pattern.Nodes

namespace OrPattern

/-- Names with their paths, seen from a place that lies this far above. -/
def under (base : Path) (bindings : List (Name × Path)) : List (Name × Path) :=
  bindings.map fun binding => (binding.1, base ++ binding.2)

section Under

variable (base : Path) (bindings : List (Name × Path))

theorem under_under (rest : Path) : under base (under rest bindings) = under (base ++ rest) bindings := by
  simp only [under, List.map_map, Function.comp_def, List.append_assoc]

@[simp] theorem under_append (others : List (Name × Path)) :
    under base (bindings ++ others) = under base bindings ++ under base others :=
  List.map_append

@[simp] theorem names_under : (under base bindings).map Prod.fst = bindings.map Prod.fst := by
  simp only [under, List.map_map, Function.comp_def]

variable {base} {bindings}

theorem mem_under_iff {name : Name} {path : Path} :
    (name, base ++ path) ∈ under base bindings ↔ (name, path) ∈ bindings := by
  simp [under]

theorem under_congr (base : Path) {others : List (Name × Path)}
    (hsame : ∀ binding, binding ∈ bindings ↔ binding ∈ others) (binding : Name × Path) :
    binding ∈ under base bindings ↔ binding ∈ under base others := by
  simp only [under, List.mem_map, hsame]

/-- Bindings that are the same from above are the same. -/
theorem mem_iff_of_under (base : Path) {others : List (Name × Path)}
    (hsame : ∀ binding, binding ∈ under base bindings ↔ binding ∈ under base others)
    (binding : Name × Path) : binding ∈ bindings ↔ binding ∈ others := by
  have hplace := hsame (binding.1, base ++ binding.2)
  rwa [mem_under_iff, mem_under_iff] at hplace

end Under

namespace Pattern

mutual

/-- The names that a pattern binds with the paths from its own place, in the
    order of the pattern. Of an or-pattern the leftmost alternative counts. -/
def bindings : Pattern → List (Name × Path)
  | wildcard _ | literal .. => []
  | bind name _ _ => [(name, [])]
  | variant _ inner _ => under [.payload] inner.bindings
  | tuple elements _ => bindingsElements elements 0
  | record fields _ _ => bindingsFields fields
  | or alternatives _ => bindingsFirst alternatives

/-- The bindings of tuple elements, of which the first has the given index. -/
def bindingsElements : List Pattern → Nat → List (Name × Path)
  | [], _ => []
  | element :: rest, index =>
    under [.element (clipIndex index)] element.bindings ++ bindingsElements rest (index + 1)

def bindingsFields : List (FieldOf Pattern) → List (Name × Path)
  | [] => []
  | ⟨name, pattern, _⟩ :: rest => under [.field name] pattern.bindings ++ bindingsFields rest

def bindingsFirst : List Pattern → List (Name × Path)
  | [] => []
  | alternative :: _ => alternative.bindings

end

/-- The names bound in the parts of a node. -/
def bindingsParts (parts : List (Step × Pattern)) : List (Name × Path) :=
  parts.flatMap fun part => under [part.1.clip] part.2.bindings

theorem bindingsElements_eq (elements : List Pattern) (index : Nat) :
    bindingsElements elements index =
      bindingsParts ((elements.zipIdx index).map fun (element, index) => (.element index, element)) := by
  induction elements generalizing index with
  | nil => rfl
  | cons element rest ih =>
    simp only [bindingsElements, ih, bindingsParts, List.zipIdx_cons, List.map_cons,
      List.flatMap_cons, Step.clip]

theorem bindingsFields_eq (fields : List (FieldOf Pattern)) :
    bindingsFields fields =
      bindingsParts (fields.map fun field => (.field field.name, field.pattern)) := by
  induction fields with
  | nil => rfl
  | cons field rest ih =>
    obtain ⟨name, pattern, span⟩ := field
    simp only [bindingsFields, ih, bindingsParts, List.map_cons, List.flatMap_cons, Step.clip]

theorem bindings_branch {pattern : Pattern} (hbranch : pattern.isBranch) :
    pattern.bindings = bindingsParts pattern.parts := by
  cases pattern with
  | variant tag inner span =>
    simp only [bindings, parts, bindingsParts, List.flatMap_singleton, Step.clip]
  | tuple elements span => simp only [bindings, parts, bindingsElements_eq]
  | record fields rest span => simp only [bindings, parts, bindingsFields_eq]
  | wildcard | bind | literal | or => cases hbranch

/-- The names that a pattern binds, in its own order. -/
def names (pattern : Pattern) : List Name := pattern.bindings.map Prod.fst

theorem names_parts (parts : List (Step × Pattern)) :
    (bindingsParts parts).map Prod.fst = parts.flatMap fun part => part.2.names := by
  simp only [bindingsParts, List.map_flatMap, names_under, names]

theorem names_nodup_of_part {pattern : Pattern} (hbranch : pattern.isBranch)
    (hnodup : pattern.names.Nodup) {part : Step × Pattern} (hmem : part ∈ pattern.parts) :
    part.2.names.Nodup := by
  rw [names, bindings_branch hbranch, names_parts] at hnodup
  exact (List.nodup_flatMap.mp hnodup).1 part hmem

/-- All alternatives bind the same names at the same places, and none of them a
    name twice. -/
structure Agree (alternatives : List Pattern) : Prop where
  unique : ∀ pattern ∈ alternatives, pattern.names.Nodup
  same : ∀ pattern ∈ alternatives, ∀ other ∈ alternatives, ∀ binding,
    binding ∈ pattern.bindings ↔ binding ∈ other.bindings

/-- The node is no or-pattern whose alternatives disagree. -/
def ChoicesAgree (pattern : Pattern) : Prop := Agree pattern.choices

theorem nodup_bindings {pattern : Pattern} (hnodup : pattern.names.Nodup) :
    pattern.bindings.Nodup :=
  hnodup.of_map Prod.fst

/-- Of alternatives that agree any one tells what all of them bind. -/
theorem Agree.bindings_perm {alternatives : List Pattern} (hagree : Agree alternatives)
    {pattern : Pattern} (hmem : pattern ∈ alternatives) :
    pattern.bindings.Perm (bindingsFirst alternatives) := by
  cases alternatives with
  | nil => exact absurd hmem List.not_mem_nil
  | cons first rest =>
    exact (List.perm_ext_iff_of_nodup (nodup_bindings (hagree.unique pattern hmem))
      (nodup_bindings (hagree.unique first List.mem_cons_self))).mpr
      (hagree.same pattern hmem first List.mem_cons_self)

theorem Agree.names_perm {alternatives : List Pattern} (hagree : Agree alternatives)
    {pattern : Pattern} (hmem : pattern ∈ alternatives) :
    pattern.names.Perm ((bindingsFirst alternatives).map Prod.fst) :=
  (hagree.bindings_perm hmem).map _

theorem Agree.nodup_first {alternatives : List Pattern} (hagree : Agree alternatives) :
    ((bindingsFirst alternatives).map Prod.fst).Nodup := by
  cases alternatives with
  | nil => exact List.nodup_nil
  | cons first rest => exact hagree.unique first List.mem_cons_self

theorem bindingsFirst_alternatives (pattern : Pattern) :
    bindingsFirst pattern.alternatives = pattern.bindings := by
  cases pattern <;> rfl

/-- A pattern by itself agrees with itself. -/
theorem agree_singleton_iff {pattern : Pattern} : Agree [pattern] ↔ pattern.names.Nodup := by
  refine ⟨fun h => h.unique pattern List.mem_cons_self, fun h => ⟨?_, ?_⟩⟩
  · intro other hother
    exact List.mem_singleton.mp hother ▸ h
  · intro one hone other hother binding
    rw [List.mem_singleton.mp hone, List.mem_singleton.mp hother]

/-- A pattern whose or-patterns agree lists the name of every binding in it. -/
theorem mem_names_of_mem_nodes {pattern : Pattern} {name : Name} {ascription : Option Ty} {span : Span}
    (hagree : ∀ node ∈ pattern.nodes, node.ChoicesAgree)
    (hnode : bind name ascription span ∈ pattern.nodes) : name ∈ pattern.names := by
  induction pattern using inductParts with
  | wildcard | literal => cases List.mem_singleton.mp hnode
  | bind bound stated place =>
    cases List.mem_singleton.mp hnode
    exact List.mem_cons_self
  | branch pattern hbranch ih =>
    rcases (mem_nodes_branch_iff hbranch).mp hnode with rfl | ⟨part, hmem, hpart⟩
    · cases hbranch
    · rw [names, bindings_branch hbranch, names_parts]
      exact List.mem_flatMap.mpr ⟨part, hmem, ih part hmem (forall_nodes_of_part hagree hmem) hpart⟩
  | or alternatives place ih =>
    rcases mem_nodes_or_iff.mp hnode with heq | ⟨choice, hmem, hchoice⟩
    · cases heq
    · have hchoices : Agree alternatives := hagree _ (self_mem_nodes _)
      exact (hchoices.names_perm hmem).mem_iff.mp
        (ih choice hmem (forall_nodes_of_choice hagree hmem) hchoice)

section Captured

variable {value : Value} {captured : List (Name × Value)}

theorem capturesElements_length {elements : List Pattern} {values : List Value}
    (hcaptured : capturesElements elements values = some captured) :
    elements.length = values.length := by
  induction elements generalizing values captured with
  | nil =>
    cases values with
    | nil => rfl
    | cons value values => cases hcaptured
  | cons element rest ih =>
    cases values with
    | nil => cases hcaptured
    | cons value values =>
      obtain ⟨first, -, hothers⟩ := Option.bind_eq_some_iff.mp hcaptured
      obtain ⟨others, hrest, -⟩ := Option.map_eq_some_iff.mp hothers
      rw [List.length_cons, List.length_cons, ih hrest]

theorem capturesParts_of_captures {pattern : Pattern} (hbranch : pattern.isBranch)
    (hcaptured : pattern.captures value = some captured) :
    capturesParts value pattern.parts = some captured := by
  cases pattern with
  | variant tag inner span =>
    cases value with
    | variant found payload =>
      simp only [captures] at hcaptured
      split at hcaptured
      · simpa [parts, capturesParts, Value.project, bothCaptures] using hcaptured
      · cases hcaptured
    | _ => cases hcaptured
  | tuple elements span =>
    cases value with
    | tuple values =>
      rw [captures] at hcaptured
      rw [parts, ← hcaptured]
      exact (capturesElements_eq (capturesElements_length hcaptured) rfl).symm
    | _ => cases hcaptured
  | record fields rest span =>
    rw [captures, capturesFields_eq] at hcaptured
    exact hcaptured
  | wildcard | bind | literal | or => cases hbranch

theorem exists_of_capturesFirst {alternatives : List Pattern}
    (hcaptured : capturesFirst alternatives value = some captured) :
    ∃ pattern ∈ alternatives, pattern.captures value = some captured := by
  induction alternatives with
  | nil => cases hcaptured
  | cons first rest ih =>
    simp only [capturesFirst] at hcaptured
    split at hcaptured
    · next found hfound =>
      cases hcaptured
      exact ⟨first, List.mem_cons_self, hfound⟩
    · obtain ⟨pattern, hmem, hpattern⟩ := ih hcaptured
      exact ⟨pattern, List.mem_cons_of_mem first hmem, hpattern⟩

theorem capturesParts_perm {parts : List (Step × Pattern)}
    (hclip : ∀ part ∈ parts, part.1.clip = part.1)
    (hcaptured : capturesParts value parts = some captured)
    (hparts : ∀ part ∈ parts, ∀ component found, part.2.captures component = some found →
      (found.map fun entry => (entry.1, some entry.2)).Perm
        (part.2.bindings.map fun binding => (binding.1, component.at? binding.2))) :
    (captured.map fun entry => (entry.1, some entry.2)).Perm
      ((bindingsParts parts).map fun binding => (binding.1, value.at? binding.2)) := by
  induction parts generalizing captured with
  | nil =>
    cases hcaptured
    exact .nil
  | cons part rest ih =>
    obtain ⟨step, pattern⟩ := part
    obtain ⟨first, hfirst, hothers⟩ := Option.bind_eq_some_iff.mp hcaptured
    obtain ⟨others, hrest, rfl⟩ := Option.map_eq_some_iff.mp hothers
    obtain ⟨component, hcomponent, hfound⟩ := Option.bind_eq_some_iff.mp hfirst
    have hhead := hparts (step, pattern) List.mem_cons_self component first hfound
    have htail := ih (fun part hmem => hclip part (List.mem_cons_of_mem _ hmem)) hrest
      fun part hmem => hparts part (List.mem_cons_of_mem _ hmem)
    have hstep : step.clip = step := hclip (step, pattern) List.mem_cons_self
    have hplace : ∀ path, value.at? (step :: path) = component.at? path := fun path => by
      simp only [Value.at?, hcomponent]
    simp only [bindingsParts, List.flatMap_cons, List.map_append, under, List.map_map,
      Function.comp_def, List.singleton_append, hstep, hplace]
    exact hhead.append htail

/-- What a pattern captures are the values at the places of its names, whichever
    alternatives of its or-patterns accept them. -/
theorem captures_perm (pattern : Pattern) (value : Value) (captured : List (Name × Value))
    (hdistinct : ∀ node ∈ pattern.nodes, node.StepsDistinct)
    (hagree : ∀ node ∈ pattern.nodes, node.ChoicesAgree)
    (hcaptured : pattern.captures value = some captured) :
    (captured.map fun entry => (entry.1, some entry.2)).Perm
      (pattern.bindings.map fun binding => (binding.1, value.at? binding.2)) := by
  induction pattern using inductParts generalizing value captured with
  | wildcard span =>
    cases hcaptured
    exact .nil
  | bind name ascription span =>
    cases hcaptured
    exact .refl _
  | literal literal span =>
    rw [captures] at hcaptured
    split at hcaptured
    · cases hcaptured
      exact .nil
    · cases hcaptured
  | branch pattern hbranch ih =>
    rw [bindings_branch hbranch]
    refine capturesParts_perm
      (fun part hmem => clip_eq_of_mem_parts (hdistinct pattern (self_mem_nodes pattern)) hmem)
      (capturesParts_of_captures hbranch hcaptured) ?_
    intro part hmem component found hfound
    exact ih part hmem component found (forall_nodes_of_part hdistinct hmem)
      (forall_nodes_of_part hagree hmem) hfound
  | or alternatives span ih =>
    obtain ⟨pattern, hmem, hpattern⟩ := exists_of_capturesFirst hcaptured
    have hown := ih pattern hmem value captured (forall_nodes_of_choice hdistinct hmem)
      (forall_nodes_of_choice hagree hmem) hpattern
    have hchoices : Agree alternatives := hagree _ (self_mem_nodes _)
    exact hown.trans ((hchoices.bindings_perm hmem).map _)

/-- Of alternatives that agree each captures the values at the same places. -/
theorem Agree.captures_perm {alternatives : List Pattern} (hagree : Agree alternatives)
    {chosen : Pattern} (hmem : chosen ∈ alternatives)
    (hdistinct : ∀ node ∈ chosen.nodes, node.StepsDistinct)
    (hnodes : ∀ node ∈ chosen.nodes, node.ChoicesAgree)
    (hcaptured : chosen.captures value = some captured) :
    (captured.map fun entry => (entry.1, some entry.2)).Perm
      ((bindingsFirst alternatives).map fun binding => (binding.1, value.at? binding.2)) :=
  (chosen.captures_perm value captured hdistinct hnodes hcaptured).trans
    ((hagree.bindings_perm hmem).map _)

end Captured

end Pattern

end OrPattern
