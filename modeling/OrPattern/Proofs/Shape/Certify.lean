import Mathlib.Data.List.Forall2
import OrPattern.Proofs.Pattern.Bindings
import OrPattern.Proofs.Shape.Agreement
import OrPattern.Proofs.Shape.Suits

namespace OrPattern

/-- The certificate lists the names of a pattern where the pattern binds them. -/
def Certificate.Lists (certificate : Certificate) (path : Path) (pattern : Pattern) : Prop :=
  ∀ binding ∈ under path pattern.bindings, certificate.path? binding.1 = some binding.2

theorem Certificate.Lists.part {certificate : Certificate} {path : Path} {pattern : Pattern}
    {part : Step × Pattern} (hlists : certificate.Lists path pattern)
    (hbranch : pattern.isBranch) (hmem : part ∈ pattern.parts) :
    certificate.Lists (path ++ [part.1.clip]) part.2 := by
  intro binding hbinding
  refine hlists binding ?_
  rw [← under_under] at hbinding
  rw [Pattern.bindings_branch hbranch]
  refine List.map_subset _ (fun inner hinner => ?_) hbinding
  exact List.mem_flatMap.mpr ⟨part, hmem, hinner⟩

namespace Pattern

variable {alternatives : List Pattern} {base path : Path} {position : Position} {span : Span}
  {certificate : Certificate} {outline : Outline} {outlined : List Outlined} {index : Nat}

/-- Each alternative is outlined at its own position and binds no name twice. -/
def OutlinesAt (base : Path) (pattern : Pattern) (found : Outlined) : Prop :=
  pattern.outline base [] = .ok found.outline ∧ (found.outline.entries.map Prod.fst).Nodup

theorem outlineAlternatives_sound
    (houtlined : outlineAlternatives alternatives index base span = .ok outlined) :
    List.Forall₂ (OutlinesAt base) alternatives outlined := by
  induction alternatives generalizing index outlined with
  | nil =>
    cases houtlined
    exact .nil
  | cons pattern rest ih =>
    obtain ⟨outline, houtline, hnext⟩ := Except.bind_eq_ok_iff.mp houtlined
    obtain ⟨⟨⟩, hrepeats, hnext⟩ := Except.bind_eq_ok_iff.mp hnext
    obtain ⟨others, hothers, hresult⟩ := Except.bind_eq_ok_iff.mp hnext
    cases hresult
    exact .cons ⟨houtline, Outline.checkRepeats_eq_ok_iff.mp hrepeats⟩ (ih hothers)

theorem exists_outlineAlternatives
    (hpatterns : ∀ pattern ∈ alternatives, ∃ outline, pattern.outline base [] = .ok outline ∧
      (outline.entries.map Prod.fst).Nodup) (index : Nat) :
    ∃ outlined, outlineAlternatives alternatives index base span = .ok outlined := by
  induction alternatives generalizing index with
  | nil => exact ⟨[], rfl⟩
  | cons pattern rest ih =>
    obtain ⟨outline, houtline, hnodup⟩ := hpatterns pattern List.mem_cons_self
    obtain ⟨others, hothers⟩ := ih (fun other hmem =>
      hpatterns other (List.mem_cons_of_mem pattern hmem)) (index + 1)
    refine ⟨⟨index, pattern.span, outline⟩ :: others, ?_⟩
    refine Except.bind_eq_ok_iff.mpr ⟨outline, houtline, Except.bind_eq_ok_iff.mpr ⟨(), ?_, ?_⟩⟩
    · exact Outline.checkRepeats_eq_ok_iff.mpr hnodup
    · exact Except.bind_eq_ok_iff.mpr ⟨others, hothers, rfl⟩

/-- A nested or-pattern binds what its alternatives agree on. -/
theorem outline_or_eq_ok_iff :
    (or alternatives span).outline path position = .ok outline ↔
      ∃ certificate, certify alternatives path span = .ok certificate ∧
        ({ bindings := certificate.bindings.map fun (name, path) => ⟨name, path, span⟩ } : Outline) =
          outline := by
  simp only [Pattern.outline, certify, Except.bind_eq_ok_iff, Except.pure_eq_ok_iff]
  constructor
  · rintro ⟨outlined, houtlined, certificate, hagree, rfl⟩
    exact ⟨certificate, ⟨outlined, houtlined, hagree⟩, rfl⟩
  · rintro ⟨certificate, ⟨outlined, houtlined, hagree⟩, rfl⟩
    exact ⟨outlined, houtlined, certificate, hagree, rfl⟩

/-- The outline tells what the pattern binds, whose or-patterns agree with
    themselves. -/
structure Described (path : Path) (pattern : Pattern) (outline : Outline) : Prop where
  entries : outline.entries = under path pattern.bindings
  agree : ∀ node ∈ pattern.nodes, node.ChoicesAgree

theorem agree_nil : Agree [] := ⟨nofun, nofun⟩

theorem described_of_gathers {parts : List (Step × Pattern)} {stepOf : Step → PositionStep}
    (hgathers : Gathers (fun step part => part.outline (path ++ [step.clip])
      (position ++ [stepOf step.clip])) {} parts outline)
    (hparts : ∀ part ∈ parts, ∀ found,
      part.2.outline (path ++ [part.1.clip]) (position ++ [stepOf part.1.clip]) = .ok found →
        Described (path ++ [part.1.clip]) part.2 found) :
    outline.entries = under path (bindingsParts parts) ∧
      ∀ part ∈ parts, ∀ node ∈ part.2.nodes, node.ChoicesAgree := by
  induction hgathers with
  | nil => exact ⟨rfl, nofun⟩
  | @cons step pattern parts first others head _ ih =>
    have hfirst := hparts (step, pattern) List.mem_cons_self first head
    obtain ⟨hothers, hagree⟩ := ih fun part hmem => hparts part (List.mem_cons_of_mem _ hmem)
    refine ⟨?_, List.forall_mem_cons.mpr ⟨hfirst.agree, hagree⟩⟩
    have hsplit : (first ++ others).entries = first.entries ++ others.entries := List.map_append
    rw [hsplit, hfirst.entries, hothers, bindingsParts, bindingsParts, List.flatMap_cons,
      under_append, under_under]

/-- Certified alternatives agree, if their outlines tell what they bind. -/
theorem certify_sound_of_outlines (hcertify : certify alternatives base span = .ok certificate)
    (hpatterns : ∀ pattern ∈ alternatives, ∀ outline, pattern.outline base [] = .ok outline →
      Described base pattern outline) :
    certificate.bindings = under base (bindingsFirst alternatives) ∧ Agree alternatives ∧
      ∀ pattern ∈ alternatives, ∀ node ∈ pattern.nodes, node.ChoicesAgree := by
  obtain ⟨outlined, houtlined, hagree⟩ := Except.bind_eq_ok_iff.mp hcertify
  have hall := outlineAlternatives_sound houtlined
  have houtlines : ∀ pattern ∈ alternatives, ∃ found ∈ outlined,
      Described base pattern found.outline ∧ pattern.names.Nodup := by
    intro pattern hmem
    obtain ⟨found, hfound, houtline, hnodup⟩ := exists_of_forall₂ hall.flip hmem
    have hdescribed := hpatterns pattern hmem _ houtline
    rw [hdescribed.entries, names_under] at hnodup
    exact ⟨found, hfound, hdescribed, hnodup⟩
  have hnodes : ∀ pattern ∈ alternatives, ∀ node ∈ pattern.nodes, node.ChoicesAgree := by
    intro pattern hmem
    obtain ⟨_, -, hdescribed, -⟩ := houtlines pattern hmem
    exact hdescribed.agree
  cases hall with
  | nil =>
    cases hagree
    exact ⟨rfl, agree_nil, hnodes⟩
  | @cons first found rest others hfirst hrest =>
    obtain ⟨⟨hsame, -⟩, rfl⟩ := (Outlined.agree_eq_ok_iff fun other hother => by
      obtain ⟨_, -, houtlines⟩ := exists_of_forall₂ hrest hother
      exact houtlines.2).mp hagree
    have hfound : ∀ other ∈ found :: others, ∀ entry,
        entry ∈ found.outline.entries ↔ entry ∈ other.outline.entries :=
      List.forall_mem_cons.mpr ⟨fun _ => Iff.rfl, hsame⟩
    refine ⟨(hpatterns first List.mem_cons_self _ hfirst.1).entries,
      ⟨fun pattern hmem => ?_, fun pattern hmem other hother => ?_⟩, hnodes⟩
    · obtain ⟨_, -, -, hunique⟩ := houtlines pattern hmem
      exact hunique
    · obtain ⟨one, hone, honeDescribed, -⟩ := houtlines pattern hmem
      obtain ⟨two, htwo, htwoDescribed, -⟩ := houtlines other hother
      refine mem_iff_of_under base fun binding => ?_
      rw [← honeDescribed.entries, ← htwoDescribed.entries]
      exact (hfound one hone binding).symm.trans (hfound two htwo binding)

/-- An outline tells what its pattern binds. -/
theorem outline_sound (pattern : Pattern) (path : Path) (position : Position) (outline : Outline)
    (houtline : pattern.outline path position = .ok outline) : Described path pattern outline := by
  induction pattern using inductParts generalizing path position outline with
  | wildcard | literal =>
    cases houtline
    refine ⟨rfl, fun node hnode => ?_⟩
    cases List.mem_singleton.mp hnode
    exact agree_nil
  | bind name ascription span =>
    cases houtline
    refine ⟨?_, fun node hnode => ?_⟩
    · simp only [Outline.entries, bindings, under, List.map_cons, List.map_nil, List.append_nil]
    · cases List.mem_singleton.mp hnode
      exact agree_nil
  | branch pattern hbranch ih =>
    obtain ⟨inner, hinner, rfl⟩ := (outline_branch_eq_ok_iff hbranch).mp houtline
    obtain ⟨hentries, hnodes⟩ := described_of_gathers hinner fun part hmem found hfound =>
      ih part hmem _ _ found hfound
    refine ⟨?_, fun node hnode => ?_⟩
    · rw [bindings_branch hbranch, ← hentries]
      rfl
    · rcases (mem_nodes_branch_iff hbranch).mp hnode with rfl | ⟨part, hmem, hnode⟩
      · rw [ChoicesAgree, choices_branch hbranch]
        exact agree_nil
      · exact hnodes part hmem node hnode
  | or alternatives span ih =>
    obtain ⟨certificate, hcertify, rfl⟩ := outline_or_eq_ok_iff.mp houtline
    obtain ⟨hbindings, hagree, hnodes⟩ := certify_sound_of_outlines hcertify
      fun pattern hmem outline houtline => ih pattern hmem path [] outline houtline
    refine ⟨?_, fun node hnode => ?_⟩
    · rw [bindings, ← hbindings, Outline.entries, List.map_map]
      exact List.map_id _
    · rcases mem_nodes_or_iff.mp hnode with rfl | ⟨choice, hmem, hnode⟩
      · exact hagree
      · exact hnodes choice hmem node hnode

/-- A certificate lists what the leftmost alternative binds, and the alternatives
    and all or-patterns in them agree. -/
theorem certify_sound (hcertify : certify alternatives base span = .ok certificate) :
    certificate.bindings = under base (bindingsFirst alternatives) ∧ Agree alternatives ∧
      ∀ pattern ∈ alternatives, ∀ node ∈ pattern.nodes, node.ChoicesAgree :=
  certify_sound_of_outlines hcertify fun pattern _ outline houtline =>
    pattern.outline_sound base [] outline houtline

theorem names_of_certify (hcertify : certify alternatives base span = .ok certificate) :
    certificate.names = (bindingsFirst alternatives).map Prod.fst := by
  rw [Certificate.names, (certify_sound hcertify).1, names_under]

/-- A certificate lists the names of every alternative that it was made for. -/
theorem lists_of_certify (hcertify : certify alternatives base span = .ok certificate)
    {pattern : Pattern} (hmem : pattern ∈ alternatives) : certificate.Lists base pattern := by
  obtain ⟨hbindings, hagree, -⟩ := certify_sound hcertify
  intro binding hbinding
  have hcertified : binding ∈ certificate.bindings := by
    rw [hbindings]
    exact (under_congr base (fun _ => (hagree.bindings_perm hmem).mem_iff) binding).mp hbinding
  refine (lookup_eq_some_iff_mem ?_).mpr hcertified
  rw [hbindings, names_under]
  exact hagree.nodup_first

/-- The shapes that two alternatives demand go with each other. -/
def ShapesAgree (base : Path) (left right : Pattern) : Prop :=
  ∀ one other : Outlined, left.outline base [] = .ok one.outline →
    right.outline base [] = .ok other.outline → one.ShapesGo other

theorem pairwise_shapesGo_iff (hall : List.Forall₂ (OutlinesAt base) alternatives outlined) :
    outlined.Pairwise Outlined.ShapesGo ↔ alternatives.Pairwise (ShapesAgree base) := by
  induction hall with
  | nil => exact ⟨fun _ => .nil, fun _ => .nil⟩
  | @cons first found rest others hfirst hrest ih =>
    rw [List.pairwise_cons, List.pairwise_cons, ih]
    refine and_congr_left fun _ => ⟨fun hgo pattern hmem one other hone hother => ?_,
      fun hagree other hmem => ?_⟩
    · obtain ⟨right, hright, houtline, -⟩ := exists_of_forall₂ hrest.flip hmem
      have hsame := Except.ok.inj (hfirst.1.symm.trans hone)
      have hsame' := Except.ok.inj (houtline.symm.trans hother)
      have := hgo right hright
      rwa [Outlined.ShapesGo, hsame, hsame'] at this
    · obtain ⟨pattern, hpattern, houtline, -⟩ := exists_of_forall₂ hrest hmem
      exact hagree pattern hpattern found other hfirst.1 houtline

/-- Alternatives are certified if each of them can be outlined, they agree in what
    they bind, and the shapes of every two go with each other. -/
theorem exists_certify_iff : (∃ certificate, certify alternatives base span = .ok certificate) ↔
    (∀ pattern ∈ alternatives, ∃ outline, pattern.outline base [] = .ok outline) ∧
      Agree alternatives ∧ alternatives.Pairwise (ShapesAgree base) := by
  constructor
  · rintro ⟨certificate, hcertify⟩
    obtain ⟨outlined, houtlined, hagree⟩ := Except.bind_eq_ok_iff.mp hcertify
    have hall := outlineAlternatives_sound houtlined
    refine ⟨fun pattern hmem => ?_, (certify_sound hcertify).2.1,
      (pairwise_shapesGo_iff hall).mp ?_⟩
    · obtain ⟨found, -, houtline, -⟩ := exists_of_forall₂ hall.flip hmem
      exact ⟨found.outline, houtline⟩
    · cases hall with
      | nil => exact .nil
      | cons _ hrest =>
        refine ((Outlined.agree_eq_ok_iff fun other hother => ?_).mp hagree).1.2
        obtain ⟨_, -, houtlines⟩ := exists_of_forall₂ hrest hother
        exact houtlines.2
  · rintro ⟨houtline, hagree, hshapes⟩
    obtain ⟨outlined, houtlined⟩ : ∃ outlined,
        outlineAlternatives alternatives 0 base span = .ok outlined := by
      refine exists_outlineAlternatives (fun pattern hmem => ?_) 0
      obtain ⟨outline, houtline⟩ := houtline pattern hmem
      refine ⟨outline, houtline, ?_⟩
      rw [(pattern.outline_sound base [] outline houtline).entries, names_under]
      exact hagree.unique pattern hmem
    have hall := outlineAlternatives_sound houtlined
    have hgo := (pairwise_shapesGo_iff hall).mpr hshapes
    have hentries : ∀ found ∈ outlined, ∃ pattern ∈ alternatives,
        found.outline.entries = under base pattern.bindings := by
      intro found hfound
      obtain ⟨pattern, hmem, houtline, -⟩ := exists_of_forall₂ hall hfound
      exact ⟨pattern, hmem, (pattern.outline_sound base [] _ houtline).entries⟩
    cases hall with
    | nil => exact ⟨⟨[]⟩, Except.bind_eq_ok_iff.mpr ⟨[], houtlined, rfl⟩⟩
    | @cons first found rest others hfirst hrest =>
      refine ⟨⟨found.outline.entries⟩, Except.bind_eq_ok_iff.mpr ⟨_, houtlined, ?_⟩⟩
      refine (Outlined.agree_eq_ok_iff fun other hother => ?_).mpr
        ⟨⟨fun other hother entry => ?_, hgo⟩, rfl⟩
      · obtain ⟨_, -, houtlines⟩ := exists_of_forall₂ hrest hother
        exact houtlines.2
      · obtain ⟨one, hone, honeEntries⟩ := hentries found List.mem_cons_self
        obtain ⟨two, htwo, htwoEntries⟩ := hentries other (List.mem_cons_of_mem found hother)
        rw [honeEntries, htwoEntries]
        exact under_congr base (hagree.same one hone two htwo) entry

section Complete

variable {pool : Pool} {expected : Ty}

/-- Each shape that an outline demands suits the type at its position, seen from a
    position where the type is known. -/
def ShapesSuit (pool : Pool) (position : Position) (expected : Ty) (outline : Outline) : Prop :=
  ∀ site ∈ outline.shapes, ∃ rest place form, site.position = position ++ rest ∧
    pool.typeAt? expected rest = some place ∧ pool.form? place = some form ∧ site.shape.Suits form

/-- The shapes of alternatives that suit one type go with each other. -/
theorem shapesGo_of_suit {left right : Outlined} (hleft : ShapesSuit pool [] expected left.outline)
    (hright : ShapesSuit pool [] expected right.outline) : left.ShapesGo right := by
  intro site hsite other hother
  have hmem := List.mem_filter.mp (List.mem_of_getLast? hother)
  have hposition : other.position = site.position := by simpa using hmem.2
  obtain ⟨rest, place, form, hrest, hplace, hform, hsuits⟩ := hleft site hsite
  obtain ⟨rest', place', form', hrest', hplace', hform', hsuits'⟩ := hright other hmem.1
  obtain rfl : rest = rest' := hrest.symm.trans (hposition.symm.trans hrest')
  obtain rfl : place = place' := Option.some.inj (hplace.symm.trans hplace')
  obtain rfl : form = form' := Option.some.inj (hform.symm.trans hform')
  exact ShapeClass.compatible_of_suits hsuits hsuits'

/-- Alternatives that agree are certified, if each of them can be outlined with
    shapes that suit one type. -/
theorem exists_certify_of_outlines (hagree : Agree alternatives)
    (hpatterns : ∀ pattern ∈ alternatives, ∃ outline, pattern.outline base [] = .ok outline ∧
      ShapesSuit pool [] expected outline) :
    ∃ certificate, certify alternatives base span = .ok certificate := by
  have hsuit : ∀ pattern ∈ alternatives, ∀ found : Outlined,
      pattern.outline base [] = .ok found.outline → ShapesSuit pool [] expected found.outline := by
    intro pattern hmem found hfound
    obtain ⟨outline, houtline, hsuits⟩ := hpatterns pattern hmem
    rwa [Except.ok.inj (hfound.symm.trans houtline)]
  refine exists_certify_iff.mpr ⟨fun pattern hmem => ?_, hagree, ?_⟩
  · obtain ⟨outline, houtline, -⟩ := hpatterns pattern hmem
    exact ⟨outline, houtline⟩
  · refine List.pairwise_of_forall_mem_list fun left hleft right hright one other hone hother => ?_
    exact shapesGo_of_suit (hsuit left hleft one hone) (hsuit right hright other hother)

theorem exists_gathers_of_suit {parts : List (Step × Pattern)} {stepOf : Step → PositionStep}
    (hparts : ∀ part ∈ parts, ∃ type, pool.component? expected (stepOf part.1.clip) = some type ∧
      ∃ outline,
        part.2.outline (path ++ [part.1.clip]) (position ++ [stepOf part.1.clip]) = .ok outline ∧
        ShapesSuit pool (position ++ [stepOf part.1.clip]) type outline) :
    ∃ outline, Gathers (fun step part => part.outline (path ++ [step.clip])
        (position ++ [stepOf step.clip])) {} parts outline ∧
      ShapesSuit pool position expected outline := by
  induction parts with
  | nil => exact ⟨{}, .nil, nofun⟩
  | cons part rest ih =>
    obtain ⟨type, hcomponent, first, hfirst, hsuits⟩ := hparts part List.mem_cons_self
    obtain ⟨others, hothers, hrest⟩ := ih fun other hmem =>
      hparts other (List.mem_cons_of_mem part hmem)
    refine ⟨first ++ others, .cons hfirst hothers, fun site hsite => ?_⟩
    rcases List.mem_append.mp hsite with hsite | hsite
    · obtain ⟨below, place, form, hposition, hplace, hform, hshape⟩ := hsuits site hsite
      refine ⟨stepOf part.1.clip :: below, place, form, ?_, ?_, hform, hshape⟩
      · rw [hposition, List.append_assoc, List.singleton_append]
      · rw [Pool.typeAt?, hcomponent, Option.bind_some, hplace]
    · exact hrest site hsite

/-- A pattern is outlined if its or-patterns agree with themselves and every node
    fits the type at its place. -/
theorem exists_outline (pattern : Pattern) (path : Path) (position : Position) (expected : Ty)
    (hdistinct : ∀ node ∈ pattern.nodes, node.StepsDistinct)
    (hagree : ∀ node ∈ pattern.nodes, node.ChoicesAgree)
    (hfits : ∀ place node, Reaches pool expected pattern place node → node.Fits pool place) :
    ∃ outline, pattern.outline path position = .ok outline ∧
      ShapesSuit pool position expected outline := by
  have hown : ∀ {leaf : Pattern} {path : Path} {position : Position} {expected : Ty},
      leaf.Fits pool expected →
      ShapesSuit pool position expected (leaf.ownOutline path position) := by
    intro leaf path position expected hfits site hsite
    obtain ⟨shape, hshape, rfl⟩ := List.mem_map.mp hsite
    obtain ⟨form, hform, hsuits⟩ := suits_of_fits hfits (Option.mem_toList.mp hshape)
    exact ⟨[], expected, form, (List.append_nil _).symm, rfl, hform, hsuits⟩
  induction pattern using inductParts generalizing path position expected with
  | wildcard span => exact ⟨{}, rfl, nofun⟩
  | bind name ascription span => exact ⟨{ bindings := [⟨name, path, span⟩] }, rfl, nofun⟩
  | literal value span => exact ⟨_, rfl, hown (hfits _ _ (.self _ _))⟩
  | branch pattern hbranch ih =>
    have hself := hfits _ _ (.self _ _)
    obtain ⟨inner, hinner, hsuits⟩ : ∃ inner,
        Gathers (fun step part => part.outline (path ++ [step.clip])
          (position ++ [pattern.positionStep step.clip])) {} pattern.parts inner ∧
          ShapesSuit pool position expected inner := by
      refine exists_gathers_of_suit fun part hmem => ?_
      obtain ⟨type, htype⟩ := exists_partType? hself hmem
      have hcomponent : pool.component? expected (pattern.positionStep part.1.clip) = some type :=
        (partType?_eq_component? (hdistinct pattern (self_mem_nodes pattern)) hmem).symm.trans htype
      refine ⟨type, hcomponent, ?_⟩
      exact ih part hmem _ _ type (forall_nodes_of_part hdistinct hmem)
        (forall_nodes_of_part hagree hmem)
        fun place node hreaches => hfits place node (.part hmem htype hreaches)
    refine ⟨_, (outline_branch_eq_ok_iff hbranch).mpr ⟨inner, hinner, rfl⟩, fun site hsite => ?_⟩
    rcases List.mem_append.mp hsite with hsite | hsite
    · exact hown hself site hsite
    · exact hsuits site hsite
  | or alternatives span ih =>
    have houtlines : ∀ pattern ∈ alternatives, ∃ outline, pattern.outline path [] = .ok outline ∧
        ShapesSuit pool [] expected outline := fun pattern hmem =>
      ih pattern hmem path [] expected (forall_nodes_of_choice hdistinct hmem)
        (forall_nodes_of_choice hagree hmem)
        fun place node hreaches => hfits place node (.alternative hmem hreaches)
    obtain ⟨certificate, hcertify⟩ : ∃ certificate,
        certify alternatives path span = .ok certificate :=
      exists_certify_of_outlines (hagree _ (self_mem_nodes _)) houtlines
    exact ⟨_, outline_or_eq_ok_iff.mpr ⟨certificate, hcertify, rfl⟩, nofun⟩

/-- Alternatives that agree and fit one type are certified. -/
theorem exists_certify (hagree : Agree alternatives)
    (hdistinct : ∀ pattern ∈ alternatives, ∀ node ∈ pattern.nodes, node.StepsDistinct)
    (hnodes : ∀ pattern ∈ alternatives, ∀ node ∈ pattern.nodes, node.ChoicesAgree)
    (hfits : ∀ pattern ∈ alternatives, ∀ place node, Reaches pool expected pattern place node →
      node.Fits pool place) :
    ∃ certificate, certify alternatives base span = .ok certificate :=
  exists_certify_of_outlines hagree fun pattern hmem =>
    pattern.exists_outline base [] expected (hdistinct pattern hmem) (hnodes pattern hmem)
      (hfits pattern hmem)

end Complete

end Pattern

end OrPattern
