import OrPattern.Proofs.Compile.Rejects
import OrPattern.Proofs.Pattern.Stands
import OrPattern.Proofs.Shape.Certify

namespace OrPattern

namespace Pattern

/-- The site tells the shape of a node of the pattern, which itself is met at this
    path and position. -/
def Shows (path : Path) (position : Position) (pattern : Pattern) (site : ShapeSite) : Prop :=
  ∃ inner node, pattern.Stands inner node ∧ site.position = position ++ inner ∧
    site.path = path ++ Position.path inner ∧ node.shapeClass? = some site.shape

variable {pattern : Pattern} {path : Path} {position : Position} {site : ShapeSite}

theorem shows_of_own (hsite : site ∈ (pattern.ownOutline path position).shapes) :
    pattern.Shows path position site := by
  obtain ⟨shape, hshape, rfl⟩ := List.mem_map.mp hsite
  exact ⟨[], pattern, .self _, (List.append_nil _).symm, (List.append_nil _).symm,
    Option.mem_toList.mp hshape⟩

theorem Shows.of_part {part : Step × Pattern} (hmem : part ∈ pattern.parts)
    (hshows : part.2.Shows (path ++ [part.1.clip])
      (position ++ [pattern.positionStep part.1.clip]) site) :
    pattern.Shows path position site := by
  obtain ⟨inner, node, hstands, hposition, hpath, hshape⟩ := hshows
  refine ⟨_, node, .part hmem hstands, ?_, ?_, hshape⟩
  · rw [hposition, List.append_assoc, List.singleton_append]
  · rw [hpath, Stands.path_cons hmem, List.append_assoc]

/-- The shapes that an outline demands are those of nodes of the pattern. -/
theorem shows_of_outline (pattern : Pattern) (path : Path) (position : Position) (outline : Outline)
    (houtline : pattern.outline path position = .ok outline) :
    ∀ site ∈ outline.shapes, pattern.Shows path position site := by
  induction pattern using inductParts generalizing path position outline with
  | wildcard | bind =>
    cases houtline
    exact nofun
  | literal value span =>
    cases houtline
    exact fun site hsite => @shows_of_own (literal value span) path position site hsite
  | branch pattern hbranch ih =>
    obtain ⟨inner, hinner, rfl⟩ := (outline_branch_eq_ok_iff hbranch).mp houtline
    have hparts : ∀ site ∈ inner.shapes, pattern.Shows path position site := by
      refine Gathers.fold (P := fun found : Outline =>
        ∀ site ∈ found.shapes, pattern.Shows path position site) hinner nofun ?_ ?_
      · exact fun first others hfirst hothers site hsite =>
          (List.mem_append.mp hsite).elim (hfirst site) (hothers site)
      · exact fun part hmem found hfound site hsite =>
          .of_part hmem (ih part hmem _ _ found hfound site hsite)
    intro site hsite
    rcases List.mem_append.mp hsite with hsite | hsite
    · exact shows_of_own hsite
    · exact hparts site hsite
  | or alternatives span =>
    obtain ⟨certificate, -, rfl⟩ := outline_or_eq_ok_iff.mp houtline
    exact nofun

end Pattern

/-- What a shape problem says is true of a pattern that is compiled on its own at
    this path. -/
inductive ShapeProblem.JustifiedBy (base : Path) (unit : Pattern) : ShapeProblem → Prop where
  | missingBinding {name : Name} {presentIn absentFrom : Nat} {present absent : Pattern}
      (holder : unit.alternatives[presentIn]? = some present)
      (other : unit.alternatives[absentFrom]? = some absent) (bound : name ∈ present.names)
      (unbound : ∀ ascription span, .bind name ascription span ∉ absent.nodes) :
      JustifiedBy base unit (.missingBinding name presentIn absentFrom)
  | pathMismatch {name : Name} {expected found : Path} {alternative : Nat} {first second : Pattern}
      (leftmost : unit.alternatives[0]? = some first)
      (other : unit.alternatives[alternative]? = some second)
      (bound : (name, expected) ∈ under base first.bindings)
      (elsewhere : (name, found) ∈ under base second.bindings) (apart : expected ≠ found) :
      JustifiedBy base unit (.pathMismatch name expected found alternative)
  | incompatibleShape {position : Position} {left right : Nat} {leftShape rightShape : ShapeClass}
      {first second leftNode rightNode : Pattern} (before : left < right)
      (one : unit.alternatives[left]? = some first) (other : unit.alternatives[right]? = some second)
      (leftStands : first.Stands position leftNode) (rightStands : second.Stands position rightNode)
      (leftClass : leftNode.shapeClass? = some leftShape)
      (rightClass : rightNode.shapeClass? = some rightShape)
      (clash : leftShape.compatible rightShape = false) :
      JustifiedBy base unit
        (.incompatibleShape (base ++ position.path) (left, leftShape) (right, rightShape))
  | duplicateBinding {name : Name} {alternative : Nat} {choice : Pattern}
      (chosen : unit.alternatives[alternative]? = some choice)
      (repeated : 2 ≤ choice.names.count name) :
      JustifiedBy base unit (.duplicateBinding name alternative)
  | degenerateOr (isOr : unit.isOr) (few : unit.alternatives.length < 2) :
      JustifiedBy base unit (.degenerateOr unit.alternatives.length)

/-- The rejection is for the shape of a pattern that is compiled on its own, and
    what it says is true of it. -/
def Rejection.ShapeJustified (base : Path) (unit : Pattern) (rejection : Rejection) : Prop :=
  rejection.span = unit.span ∧
    ∃ problem, rejection.cause = .shape problem ∧ problem.JustifiedBy base unit

theorem Rejection.shapeJustified_ofShape {base : Path} {unit : Pattern} {problem : ShapeProblem}
    (hproblem : problem.JustifiedBy base unit) (sites : List Implicated) :
    (Rejection.ofShape problem unit.span sites).ShapeJustified base unit :=
  ⟨rfl, problem, rfl, hproblem⟩

theorem Occurrence.count_firstRepeated {seen rest : List Occurrence} {earlier later : Occurrence}
    (hrepeated : firstRepeated seen rest = some (earlier, later)) :
    2 ≤ ((seen ++ rest).map Occurrence.name).count later.name := by
  induction rest generalizing seen with
  | nil => cases hrepeated
  | cons occurrence rest ih =>
    simp only [firstRepeated] at hrepeated
    split at hrepeated
    · next found hfound =>
      cases hrepeated
      have hname : earlier.name = later.name := by simpa using List.find?_some hfound
      have hseen : later.name ∈ seen.map Occurrence.name :=
        List.mem_map.mpr ⟨earlier, List.mem_of_find?_eq_some hfound, hname⟩
      have hpositive := List.count_pos_iff.mpr hseen
      rw [List.map_append, List.count_append, List.map_cons, List.count_cons_self]
      omega
    · have hrest := ih hrepeated
      rwa [List.append_assoc, List.singleton_append] at hrest

section Checks

variable {base : Path} {unit : Pattern} {index : Nat} {outlined : List Outlined}

namespace Outlined

/-- The outline is that of the alternative with its number. -/
def IsOf (base : Path) (unit : Pattern) (found : Outlined) : Prop :=
  ∃ choice, unit.alternatives[found.alternative]? = some choice ∧
    Pattern.Described base choice found.outline ∧ choice.outline base [] = .ok found.outline

variable {first other left right : Outlined}

theorem justified_checkNames (hfirst : first.IsOf base unit) (hother : other.IsOf base unit)
    (hleftmost : first.alternative = 0) :
    RejectsOnly (Rejection.ShapeJustified base unit) (checkNames first other unit.span) := by
  obtain ⟨one, hone, honeDescribed, -⟩ := hfirst
  obtain ⟨two, htwo, htwoDescribed, -⟩ := hother
  -- A name that an outline lacks has no binding anywhere in its pattern.
  have habsent : ∀ {name : Name} {outline : Outline} {choice : Pattern},
      Pattern.Described base choice outline → outline.binding? name = none →
      ∀ ascription span, .bind name ascription span ∉ choice.nodes := by
    intro name outline choice hdescribed hnone ascription span hnode
    have hname := Pattern.mem_names_of_mem_nodes hdescribed.agree hnode
    rw [Pattern.names, ← names_under base, ← hdescribed.entries, ← Outline.binding?_isSome_iff,
      hnone] at hname
    cases hname
  have hpresent : ∀ {outline : Outline} {choice : Pattern} {occurrence : Occurrence},
      Pattern.Described base choice outline → occurrence ∈ outline.bindings →
      (occurrence.name, occurrence.path) ∈ under base choice.bindings := by
    intro outline choice occurrence hdescribed hmem
    rw [← hdescribed.entries]
    exact List.mem_map.mpr ⟨occurrence, hmem, rfl⟩
  have hnamed : ∀ {choice : Pattern} {occurrence : Occurrence},
      (occurrence.name, occurrence.path) ∈ under base choice.bindings →
      occurrence.name ∈ choice.names := by
    intro choice occurrence hmem
    rw [Pattern.names, ← names_under base]
    exact List.mem_map.mpr ⟨_, hmem, rfl⟩
  refine (RejectsOnly.forM fun occurrence hmem => ?_).bind fun _ _ => .forM fun occurrence hmem => ?_
  · have hbound := hpresent honeDescribed hmem
    unfold checkBinding
    split
    · next hnone =>
      exact .error (Rejection.shapeJustified_ofShape
        (.missingBinding hone htwo (hnamed hbound) (habsent htwoDescribed hnone)) _)
    · next found hfound =>
      split
      · exact .ok ()
      · next hne =>
        have hentry := Outline.binding?_eq_some hfound
        rw [htwoDescribed.entries] at hentry
        exact .error (Rejection.shapeJustified_ofShape
          (.pathMismatch (hleftmost ▸ hone) htwo hbound hentry fun heq => hne heq.symm) _)
  · unfold checkExtra
    split
    · exact .ok ()
    · next hnone =>
      exact .error (Rejection.shapeJustified_ofShape (.missingBinding htwo hone
        (hnamed (hpresent htwoDescribed hmem)) (habsent honeDescribed hnone)) _)

theorem justified_checkShapes (hleft : left.IsOf base unit) (hright : right.IsOf base unit)
    (hbefore : left.alternative < right.alternative) :
    RejectsOnly (Rejection.ShapeJustified base unit) (checkShapes left right unit.span) := by
  obtain ⟨one, hone, -, honeOutline⟩ := hleft
  obtain ⟨two, htwo, -, htwoOutline⟩ := hright
  refine .forM fun site hsite => ?_
  unfold checkShape
  split
  · exact .ok ()
  · next other hother =>
    split
    · exact .ok ()
    · next hclash =>
      obtain ⟨hmem, hplace⟩ := List.mem_filter.mp (List.mem_of_getLast? hother)
      obtain ⟨position, oneNode, honeStands, honePosition, hpath, honeShape⟩ :=
        one.shows_of_outline base [] _ honeOutline site hsite
      obtain ⟨_, otherNode, hotherStands, hotherPosition, -, hotherShape⟩ :=
        two.shows_of_outline base [] _ htwoOutline other hmem
      obtain rfl : position = _ :=
        honePosition.symm.trans ((of_decide_eq_true hplace).symm.trans hotherPosition)
      rw [hpath]
      exact .error (Rejection.shapeJustified_ofShape (.incompatibleShape hbefore hone htwo
        honeStands hotherStands honeShape hotherShape (Bool.eq_false_iff.mpr hclash)) _)

theorem justified_checkAllShapes (hof : ∀ found ∈ outlined, found.IsOf base unit)
    (hordered : outlined.Pairwise fun left right => left.alternative < right.alternative) :
    RejectsOnly (Rejection.ShapeJustified base unit) (checkAllShapes unit.span outlined) := by
  induction outlined with
  | nil => exact .ok ()
  | cons left rest ih =>
    obtain ⟨hbefore, hordered⟩ := List.pairwise_cons.mp hordered
    obtain ⟨hleft, hrest⟩ := List.forall_mem_cons.mp hof
    exact (RejectsOnly.forM fun right hmem =>
      justified_checkShapes hleft (hrest right hmem) (hbefore right hmem)).bind fun _ _ =>
        ih hrest hordered

/-- What is found wrong when alternatives are compared is wrong with them. -/
theorem justified_agree (hof : ∀ found ∈ outlined, found.IsOf base unit)
    (hnumbers : outlined.map alternative = List.range' 0 outlined.length) :
    RejectsOnly (Rejection.ShapeJustified base unit) (agree unit.span outlined) := by
  have hordered : outlined.Pairwise fun left right => left.alternative < right.alternative := by
    rw [← List.pairwise_map, hnumbers]
    exact List.pairwise_lt_range'
  cases outlined with
  | nil => exact .ok _
  | cons first rest =>
    have hleftmost : first.alternative = 0 := (List.cons.inj hnumbers).1
    exact (RejectsOnly.forM fun other hmem => justified_checkNames (hof first List.mem_cons_self)
      (hof other (List.mem_cons_of_mem first hmem)) hleftmost).bind fun _ _ =>
        (justified_checkAllShapes hof hordered).bind fun _ _ => .ok _

end Outlined

namespace Pattern

variable {alternatives : List Pattern} {span : Span} {rejection : Rejection}

theorem outlineAlternatives_numbered
    (houtlined : outlineAlternatives alternatives index base span = .ok outlined) :
    outlined.map Outlined.alternative = List.range' index outlined.length := by
  induction alternatives generalizing index outlined with
  | nil =>
    cases houtlined
    rfl
  | cons pattern rest ih =>
    obtain ⟨outline, -, hnext⟩ := Except.bind_eq_ok_iff.mp houtlined
    obtain ⟨⟨⟩, -, hnext⟩ := Except.bind_eq_ok_iff.mp hnext
    obtain ⟨others, hothers, hresult⟩ := Except.bind_eq_ok_iff.mp hnext
    cases hresult
    rw [List.map_cons, ih hothers, List.length_cons, List.range'_succ]

/-- An or-pattern within this one, itself included, is rejected for its shape, and
    what the rejection says is true of it. -/
def ShapeRejected (base : Path) (unit : Pattern) (rejection : Rejection) : Prop :=
  ∃ position inner, unit.UnitAt position inner ∧
    rejection.ShapeJustified (base ++ Position.path position) inner

theorem ShapeRejected.of_unit (hjustified : rejection.ShapeJustified base unit) :
    unit.ShapeRejected base rejection := by
  refine ⟨[], unit, .whole, ?_⟩
  rwa [Position.path_nil, List.append_nil]

/-- So is one that stands somewhere in the pattern. -/
def ShapeRejectedBelow (path : Path) (pattern : Pattern) (rejection : Rejection) : Prop :=
  ∃ position alternatives span, pattern.Stands position (or alternatives span) ∧
    (or alternatives span).ShapeRejected (path ++ Position.path position) rejection

theorem ShapeRejected.of_choice {choice : Pattern} (hmem : choice ∈ unit.alternatives)
    (hbelow : choice.ShapeRejectedBelow base rejection) : unit.ShapeRejected base rejection := by
  obtain ⟨position, alternatives, span, hstands, rest, inner, hunit, hjustified⟩ := hbelow
  refine ⟨position ++ rest, inner, (UnitAt.nested .whole hmem hstands).trans hunit, ?_⟩
  rwa [Position.path_append, ← List.append_assoc]

theorem ShapeRejectedBelow.of_part {pattern : Pattern} {path : Path} {part : Step × Pattern}
    (hmem : part ∈ pattern.parts)
    (hbelow : part.2.ShapeRejectedBelow (path ++ [part.1.clip]) rejection) :
    pattern.ShapeRejectedBelow path rejection := by
  obtain ⟨position, alternatives, span, hstands, hrejected⟩ := hbelow
  refine ⟨_, alternatives, span, .part hmem hstands, ?_⟩
  rwa [Stands.path_cons hmem, ← List.append_assoc]

theorem justified_outlineAlternatives
    (hchoices : ∀ offset choice, alternatives[offset]? = some choice →
      unit.alternatives[index + offset]? = some choice)
    (houtlines : ∀ choice ∈ alternatives,
      RejectsOnly (choice.ShapeRejectedBelow base) (choice.outline base [])) :
    RejectsOnly (unit.ShapeRejected base)
      (outlineAlternatives alternatives index base unit.span) := by
  induction alternatives generalizing index with
  | nil => exact .ok _
  | cons choice rest ih =>
    have hchoice : unit.alternatives[index]? = some choice := hchoices 0 choice rfl
    obtain ⟨hfirst, hrest⟩ := List.forall_mem_cons.mp houtlines
    simp only [outlineAlternatives]
    refine (hfirst.mono fun _ => .of_choice (List.mem_of_getElem? hchoice)).bind
      fun outline houtline => RejectsOnly.bind ?_ fun _ _ => RejectsOnly.bind ?_ fun _ _ => .ok _
    · unfold Outline.checkRepeats
      split
      · next earlier later hrepeated =>
        have hcount := Occurrence.count_firstRepeated hrepeated
        rw [List.nil_append, ← Outline.names_entries, (choice.outline_sound _ _ _ houtline).entries,
          names_under] at hcount
        exact .error (.of_unit (Rejection.shapeJustified_ofShape
          (.duplicateBinding hchoice hcount) _))
      · exact .ok ()
    · refine ih (fun offset other hother => ?_) hrest
      have hnext := hchoices (offset + 1) other hother
      rwa [← Nat.add_assoc, Nat.add_right_comm] at hnext

/-- A pattern that is compiled on its own is refused for what is true of it, or of an
    or-pattern in it. -/
theorem justified_certify_of_outlines (houtlines : ∀ choice ∈ unit.alternatives,
      RejectsOnly (choice.ShapeRejectedBelow base) (choice.outline base [])) :
    RejectsOnly (unit.ShapeRejected base) (certify unit.alternatives base unit.span) := by
  refine (justified_outlineAlternatives (fun offset choice hchoice => ?_) houtlines).bind
    fun outlined houtlined => ?_
  · rwa [Nat.zero_add]
  have hall := outlineAlternatives_sound houtlined
  have hnumbers := outlineAlternatives_numbered houtlined
  refine (Outlined.justified_agree (fun found hmem => ?_) hnumbers).mono fun _ => .of_unit
  obtain ⟨offset, hlt, rfl⟩ := List.mem_iff_getElem.mp hmem
  have hnumber : (outlined.map Outlined.alternative)[offset]? = some offset := by
    rw [hnumbers, List.getElem?_range' hlt]
    simp
  rw [List.getElem?_map, List.getElem?_eq_getElem hlt, Option.map_some, Option.some.injEq] at hnumber
  have hlt' : offset < unit.alternatives.length := by
    rw [hall.length_eq]
    exact hlt
  obtain ⟨houtline, -⟩ := hall.get hlt' hlt
  refine ⟨unit.alternatives[offset], ?_, outline_sound _ _ _ _ houtline, houtline⟩
  rw [hnumber, List.getElem?_eq_getElem hlt']

/-- A pattern is refused an outline only for an or-pattern in it. -/
theorem justified_outline (pattern : Pattern) (path : Path) (position : Position) :
    RejectsOnly (pattern.ShapeRejectedBelow path) (pattern.outline path position) := by
  induction pattern using inductParts generalizing path position with
  | wildcard | bind | literal => exact .ok _
  | branch pattern hbranch ih =>
    exact rejectsOnly_outline_branch hbranch fun part hmem _ =>
      (ih part hmem _ _).mono fun _ => .of_part hmem
  | or alternatives span ih =>
    have hcertify : RejectsOnly ((or alternatives span).ShapeRejected path)
        (certify alternatives path span) :=
      justified_certify_of_outlines fun choice hmem => ih choice hmem path []
    refine rejectsOnly_outline_or (hcertify.mono fun rejection hrejected => ?_)
    refine ⟨[], alternatives, span, .self _, ?_⟩
    rwa [Position.path_nil, List.append_nil]

theorem justified_certify (unit : Pattern) (base : Path) :
    RejectsOnly (unit.ShapeRejected base) (certify unit.alternatives base unit.span) :=
  justified_certify_of_outlines fun choice _ => choice.justified_outline base []

end Pattern

end Checks

end OrPattern
