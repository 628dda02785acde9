import OrPattern.Proofs.Shape.Certify

namespace OrPattern

namespace Outline

/-- Where the outline demands shapes. -/
def positions (outline : Outline) : List Position := outline.shapes.map ShapeSite.position

theorem positions_append (first others : Outline) :
    (first ++ others).positions = first.positions ++ others.positions := List.map_append

/-- Several nodes at one position are looked up as the last of them; a node on its
    own is looked up as it is. -/
theorem shapeAt?_eq_some_iff {outline : Outline} {position : Position} {site : ShapeSite}
    (hnodup : outline.positions.Nodup) :
    outline.shapeAt? position = some site ↔ site ∈ outline.shapes ∧ site.position = position := by
  have hfilter : ∀ {found}, outline.shapeAt? position = some found →
      found ∈ outline.shapes ∧ found.position = position := by
    intro found hfound
    simpa using List.mem_filter.mp (List.mem_of_getLast? hfound)
  refine ⟨hfilter, fun ⟨hmem, hposition⟩ => ?_⟩
  cases hlook : outline.shapeAt? position with
  | none =>
    have hempty := List.getLast?_eq_none_iff.mp hlook
    have hthere : site ∈ outline.shapes.filter fun site => site.position = position :=
      List.mem_filter.mpr ⟨hmem, by simpa using hposition⟩
    rw [hempty] at hthere
    exact absurd hthere List.not_mem_nil
  | some found =>
    obtain ⟨hfound, hplace⟩ := hfilter hlook
    rw [List.inj_on_of_nodup_map hnodup hfound hmem (hplace.trans hposition.symm)]

end Outline

namespace Outlined

variable {left right : Outlined}

theorem shapesGo_iff (hnodup : right.outline.positions.Nodup) : left.ShapesGo right ↔
    ∀ site ∈ left.outline.shapes, ∀ other ∈ right.outline.shapes,
      other.position = site.position → site.shape.compatible other.shape := by
  simp only [ShapesGo, Outline.shapeAt?_eq_some_iff hnodup, and_imp]

/-- If no position is taken twice, it does not matter from which side the shapes are
    looked up on the other. -/
theorem ShapesGo.symm (hgo : left.ShapesGo right) (hleft : left.outline.positions.Nodup)
    (hright : right.outline.positions.Nodup) : right.ShapesGo left := by
  rw [shapesGo_iff hright] at hgo
  refine (shapesGo_iff hleft).mpr fun site hsite other hother hposition => ?_
  rw [ShapeClass.compatible_comm]
  exact hgo other hother site hsite hposition.symm

end Outlined

namespace Pattern

variable {alternatives others : List Pattern} {base path : Path} {position : Position}
  {span : Span} {outline : Outline}

theorem positionStep_injective (pattern : Pattern) : Function.Injective pattern.positionStep := by
  intro one other hsame
  cases pattern <;> cases one <;> cases other <;> simp_all [positionStep]

/-- Parts at different steps demand shapes at different positions. -/
theorem positions_of_gathers {parts : List (Step × Pattern)} {stepOf : Step → PositionStep}
    (hstep : Function.Injective stepOf)
    (hnodup : (parts.map fun part => part.1.clip).Nodup)
    (hgathers : Gathers (fun step part => part.outline (path ++ [step.clip])
      (position ++ [stepOf step.clip])) {} parts outline)
    (hparts : ∀ part ∈ parts, ∀ found,
      part.2.outline (path ++ [part.1.clip]) (position ++ [stepOf part.1.clip]) = .ok found →
        found.positions.Nodup ∧
          ∀ place ∈ found.positions, position ++ [stepOf part.1.clip] <+: place) :
    outline.positions.Nodup ∧
      ∀ place ∈ outline.positions, ∃ part ∈ parts, position ++ [stepOf part.1.clip] <+: place := by
  induction hgathers with
  | nil => exact ⟨List.nodup_nil, nofun⟩
  | @cons step pattern parts first others head _ ih =>
    obtain ⟨hfresh, hrest⟩ := List.nodup_cons.mp hnodup
    obtain ⟨hfirst, hbelow⟩ := hparts (step, pattern) List.mem_cons_self first head
    obtain ⟨hothers, hapart⟩ := ih hrest fun part hmem => hparts part (List.mem_cons_of_mem _ hmem)
    rw [Outline.positions_append]
    refine ⟨List.nodup_append'.mpr ⟨hfirst, hothers, fun place hone hother => ?_⟩,
      fun place hplace => ?_⟩
    · obtain ⟨part, hmem, hprefix⟩ := hapart place hother
      have hlength : (position ++ [stepOf step.clip]).length =
          (position ++ [stepOf part.1.clip]).length := by
        simp only [List.length_append, List.length_singleton]
      have hsame := (List.prefix_of_prefix_length_le (hbelow place hone) hprefix
        (Nat.le_of_eq hlength)).eq_of_length hlength
      obtain ⟨-, hsteps⟩ := List.append_inj' hsame rfl
      have hclip : step.clip = part.1.clip := hstep (List.singleton_inj.mp hsteps)
      exact hfresh (List.mem_map.mpr ⟨part, hmem, hclip.symm⟩)
    · rcases List.mem_append.mp hplace with hplace | hplace
      · exact ⟨(step, pattern), List.mem_cons_self, hbelow place hplace⟩
      · obtain ⟨part, hmem, hprefix⟩ := hapart place hplace
        exact ⟨part, List.mem_cons_of_mem _ hmem, hprefix⟩

/-- A pattern in which no two parts of a node share a step demands at most one shape at
    each position, all of them below its own. -/
theorem positions_nodup (pattern : Pattern) (path : Path) (position : Position) (outline : Outline)
    (hdistinct : ∀ node ∈ pattern.nodes, node.StepsDistinct)
    (houtline : pattern.outline path position = .ok outline) :
    outline.positions.Nodup ∧ ∀ place ∈ outline.positions, position <+: place := by
  induction pattern using inductParts generalizing path position outline with
  | wildcard | bind =>
    cases houtline
    exact ⟨List.nodup_nil, nofun⟩
  | literal value span =>
    cases houtline
    refine ⟨List.nodup_singleton position, fun place hplace => ?_⟩
    exact List.mem_singleton.mp hplace ▸ List.prefix_refl position
  | branch pattern hbranch ih =>
    obtain ⟨inner, hinner, rfl⟩ := (outline_branch_eq_ok_iff hbranch).mp houtline
    have hsteps := steps_nodup (hdistinct pattern (self_mem_nodes pattern))
    obtain ⟨hnodup, hbelow⟩ := positions_of_gathers (positionStep_injective pattern) hsteps hinner
      fun part hmem found hfound => ih part hmem _ _ found
        (forall_nodes_of_part hdistinct hmem) hfound
    have hlonger : ∀ place ∈ inner.positions, position <+: place ∧ place ≠ position := by
      intro place hplace
      obtain ⟨part, -, hprefix⟩ := hbelow place hplace
      refine ⟨(List.prefix_append position _).trans hprefix, ?_⟩
      rintro rfl
      have := hprefix.length_le
      simp only [List.length_append, List.length_singleton] at this
      omega
    have hown : ∀ place ∈ (pattern.ownOutline path position).positions, place = position := by
      intro place hplace
      obtain ⟨site, hsite, rfl⟩ := List.mem_map.mp hplace
      obtain ⟨shape, -, rfl⟩ := List.mem_map.mp hsite
      rfl
    have hsingle : (pattern.ownOutline path position).positions.Nodup := by
      unfold ownOutline
      cases pattern.shapeClass? <;> simp [Outline.positions]
    rw [Outline.positions_append]
    refine ⟨List.nodup_append'.mpr ⟨hsingle, hnodup, fun place hone hother => ?_⟩,
      fun place hplace => ?_⟩
    · exact (hlonger place hother).2 (hown place hone)
    · rcases List.mem_append.mp hplace with hplace | hplace
      · exact hown place hplace ▸ List.prefix_refl position
      · exact (hlonger place hplace).1
  | or alternatives span =>
    obtain ⟨certificate, -, rfl⟩ := outline_or_eq_ok_iff.mp houtline
    exact ⟨List.nodup_nil, nofun⟩

theorem ShapesAgree.symm {left right : Pattern} (hagree : ShapesAgree base left right)
    (hleft : ∀ node ∈ left.nodes, node.StepsDistinct)
    (hright : ∀ node ∈ right.nodes, node.StepsDistinct) : ShapesAgree base right left := by
  intro one other hone hother
  exact (hagree other one hother hone).symm (left.positions_nodup base [] _ hleft hother).1
    (right.positions_nodup base [] _ hright hone).1

theorem pairwise_shapesAgree_perm (hperm : others.Perm alternatives)
    (hdistinct : ∀ pattern ∈ alternatives, ∀ node ∈ pattern.nodes, node.StepsDistinct)
    (hshapes : alternatives.Pairwise (ShapesAgree base)) : others.Pairwise (ShapesAgree base) := by
  have hboth : alternatives.Pairwise fun left right =>
      ShapesAgree base left right ∧ ShapesAgree base right left :=
    hshapes.imp_of_mem fun hleft hright hagree =>
      ⟨hagree, hagree.symm (hdistinct _ hleft) (hdistinct _ hright)⟩
  exact (hboth.perm hperm.symm fun h => ⟨h.2, h.1⟩).imp And.left

theorem Agree.perm (hperm : others.Perm alternatives) (hagree : Agree alternatives) :
    Agree others where
  unique pattern hmem := hagree.unique pattern (hperm.mem_iff.mp hmem)
  same pattern hmem other hother :=
    hagree.same pattern (hperm.mem_iff.mp hmem) other (hperm.mem_iff.mp hother)

/-- Alternatives that agree bind the same in whatever order they are listed. -/
theorem Agree.bindingsFirst_perm (hperm : others.Perm alternatives) (hagree : Agree alternatives) :
    (bindingsFirst others).Perm (bindingsFirst alternatives) := by
  cases others with
  | nil =>
    rw [List.nil_perm.mp hperm]
  | cons first rest => exact hagree.bindings_perm (hperm.mem_iff.mp List.mem_cons_self)

theorem exists_certify_of_perm (hperm : others.Perm alternatives)
    (hdistinct : ∀ pattern ∈ alternatives, ∀ node ∈ pattern.nodes, node.StepsDistinct)
    (hcertified : ∃ certificate, certify alternatives base span = .ok certificate) :
    ∃ certificate, certify others base span = .ok certificate := by
  obtain ⟨houtline, hagree, hshapes⟩ := exists_certify_iff.mp hcertified
  refine exists_certify_iff.mpr ⟨fun pattern hmem => ?_, hagree.perm hperm,
    pairwise_shapesAgree_perm hperm hdistinct hshapes⟩
  exact houtline pattern (hperm.mem_iff.mp hmem)

/-- The order of the alternatives does not matter. Certificates for two orders list
    the same names with the same paths; and if no two parts of a node in the
    alternatives share a step, there is one for the one order if there is one for the
    other. -/
theorem certify_perm (hperm : others.Perm alternatives) :
    ((∀ pattern ∈ alternatives, ∀ node ∈ pattern.nodes, node.StepsDistinct) →
      ((∃ certificate, certify others base span = .ok certificate) ↔
        ∃ certificate, certify alternatives base span = .ok certificate)) ∧
    ∀ certificate other, certify alternatives base span = .ok certificate →
      certify others base span = .ok other →
        (∀ name, name ∈ other.names ↔ name ∈ certificate.names) ∧
          ∀ name, other.path? name = certificate.path? name := by
  refine ⟨fun hdistinct => ⟨exists_certify_of_perm hperm.symm fun pattern hmem =>
    hdistinct pattern (hperm.mem_iff.mp hmem), exists_certify_of_perm hperm hdistinct⟩,
    fun certificate other hcertify hother => ?_⟩
  obtain ⟨hbindings, hagree, -⟩ := certify_sound hcertify
  obtain ⟨hbindings', hagree', -⟩ := certify_sound hother
  have hsame : other.bindings.Perm certificate.bindings := by
    rw [hbindings, hbindings']
    exact (hagree.bindingsFirst_perm hperm).map _
  have hnodup : (certificate.bindings.map Prod.fst).Nodup := by
    rw [hbindings, names_under]
    exact hagree.nodup_first
  have hnodup' : (other.bindings.map Prod.fst).Nodup := (hsame.map Prod.fst).nodup_iff.mpr hnodup
  refine ⟨fun name => (hsame.map Prod.fst).mem_iff, fun name => Option.ext fun path => ?_⟩
  rw [Certificate.path?, Certificate.path?, lookup_eq_some_iff_mem hnodup,
    lookup_eq_some_iff_mem hnodup', hsame.mem_iff]

/-- An open record in front of a closed one and behind it. -/
theorem certify_perm_of_records :
    let name := bind ⟨3⟩ none Span.none
    let closed := record [⟨⟨1⟩, name, Span.none⟩, ⟨⟨2⟩, literal (.int 1) Span.none, Span.none⟩] false
      Span.none
    let opened := record [⟨⟨1⟩, name, Span.none⟩] true Span.none
    (∀ pattern ∈ [closed, opened], ∀ node ∈ pattern.nodes, node.StepsDistinct) ∧
      ∃ certificate, certify [opened, closed] [] Span.none = .ok certificate := by
  intro name closed opened
  have hdistinct : ∀ pattern ∈ [closed, opened], ∀ node ∈ pattern.nodes, node.StepsDistinct := by
    simp [closed, opened, name, nodes, nodesFields, StepsDistinct]
  exact ⟨hdistinct, ((certify_perm (.swap ..)).1 hdistinct).mpr ⟨_, rfl⟩⟩

/-- A record pattern that lists a field twice has two shapes at one position. The
    other side is compared with both if it comes later, but only with the last of
    them if it comes first. -/
theorem repeated_field_decides_by_order :
    let field := fun value => FieldOf.mk (⟨1⟩ : Name) (literal value Span.none) Span.none
    let twice := record [field (.int 1), field (.bool true)] false Span.none
    let once := record [field (.bool true)] false Span.none
    [twice, once].Perm [once, twice] ∧
      certify [once, twice] [] Span.none = .ok ⟨[]⟩ ∧
      certify [twice, once] [] Span.none = .error (.ofShape
        (.incompatibleShape [.field ⟨1⟩] (0, .literal .int) (1, .literal .bool)) Span.none
        [⟨0, Span.none, none⟩, ⟨1, Span.none, none⟩]) :=
  ⟨.swap .., rfl, rfl⟩

end Pattern

end OrPattern
