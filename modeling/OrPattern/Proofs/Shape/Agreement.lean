import OrPattern.Proofs.Compile.Yields
import OrPattern.Proofs.Name.Lookup
import OrPattern.Shape.Agreement

namespace OrPattern

theorem Occurrence.firstRepeated_eq_none_iff {seen rest : List Occurrence} :
    firstRepeated seen rest = none ↔
      (∀ occurrence ∈ rest, ∀ earlier ∈ seen, earlier.name ≠ occurrence.name) ∧
        (rest.map Occurrence.name).Nodup := by
  induction rest generalizing seen with
  | nil => simp [firstRepeated]
  | cons occurrence rest ih =>
    simp only [firstRepeated, List.map_cons, List.nodup_cons, List.forall_mem_cons]
    split
    · next earlier hfind =>
      have hmem := List.mem_of_find?_eq_some hfind
      have hname : earlier.name = occurrence.name := by simpa using List.find?_some hfind
      exact ⟨nofun, fun h => absurd hname (h.1.1 earlier hmem)⟩
    · next hfind =>
      have hnew : ∀ earlier ∈ seen, earlier.name ≠ occurrence.name := by
        simpa using hfind
      rw [ih]
      constructor
      · rintro ⟨hapart, hnodup⟩
        refine ⟨⟨hnew, fun other hother earlier hearlier => ?_⟩, fun hmem => ?_, hnodup⟩
        · exact hapart other hother earlier (List.mem_append_left _ hearlier)
        · obtain ⟨other, hother, hname⟩ := List.mem_map.mp hmem
          exact hapart other hother occurrence (List.mem_append_right _ List.mem_cons_self) hname.symm
      · rintro ⟨⟨-, hapart⟩, hfresh, hnodup⟩
        refine ⟨fun other hother earlier hearlier => ?_, hnodup⟩
        rcases List.mem_append.mp hearlier with hseen | hlast
        · exact hapart other hother earlier hseen
        · rw [List.mem_singleton.mp hlast]
          exact fun hname => hfresh (hname ▸ List.mem_map.mpr ⟨other, hother, rfl⟩)

namespace Outline

variable {outline : Outline}

/-- The bound names with their paths. -/
def entries (outline : Outline) : List (Name × Path) :=
  outline.bindings.map fun occurrence => (occurrence.name, occurrence.path)

theorem names_entries (outline : Outline) :
    outline.entries.map Prod.fst = outline.bindings.map Occurrence.name := by
  simp only [entries, List.map_map, Function.comp_def]

theorem checkRepeats_eq_ok_iff {alternative : Nat} {span : Span} :
    outline.checkRepeats alternative span = .ok () ↔ (outline.entries.map Prod.fst).Nodup := by
  rw [names_entries, checkRepeats]
  have hiff : Occurrence.firstRepeated [] outline.bindings = none ↔
      (outline.bindings.map Occurrence.name).Nodup := by
    simp [Occurrence.firstRepeated_eq_none_iff]
  rw [← hiff]
  split
  · next hsome => simp [hsome]
  · next hnone => simp [hnone]

theorem binding?_isSome_iff {name : Name} :
    (outline.binding? name).isSome ↔ name ∈ outline.entries.map Prod.fst := by
  rw [names_entries, binding?, List.find?_isSome, List.mem_map]
  simp

theorem binding?_eq_some {name : Name} {found : Occurrence}
    (hfound : outline.binding? name = some found) :
    (name, found.path) ∈ outline.entries := by
  have hname : found.name = name := by simpa using List.find?_some hfound
  exact List.mem_map.mpr ⟨found, List.mem_of_find?_eq_some hfound, by rw [hname]⟩

theorem exists_binding?_iff {name : Name} {path : Path}
    (hnodup : (outline.entries.map Prod.fst).Nodup) :
    (∃ found, outline.binding? name = some found ∧ found.path = path) ↔
      (name, path) ∈ outline.entries := by
  constructor
  · rintro ⟨found, hfound, rfl⟩
    exact binding?_eq_some hfound
  · intro hmem
    obtain ⟨found, hfound⟩ := Option.isSome_iff_exists.mp
      (binding?_isSome_iff.mpr (List.mem_map.mpr ⟨_, hmem, rfl⟩))
    have hsame := List.inj_on_of_nodup_map hnodup (binding?_eq_some hfound) hmem rfl
    exact ⟨found, hfound, (Prod.mk.inj hsame).2⟩

end Outline

namespace Outlined

variable {first other left right : Outlined} {span : Span}

theorem checkBinding_eq_ok_iff {expected : Occurrence} :
    checkBinding first other span expected = .ok () ↔
      ∃ found, other.outline.binding? expected.name = some found ∧ found.path = expected.path := by
  unfold checkBinding
  split
  · next hnone => simp [hnone]
  · next found hsome =>
    simp only [hsome, Option.some.injEq, exists_eq_left']
    split
    · next hpath => simp [hpath]
    · next hpath => simp [hpath]

theorem checkExtra_eq_ok_iff {extra : Occurrence} :
    checkExtra first other span extra = .ok () ↔ (first.outline.binding? extra.name).isSome := by
  unfold checkExtra
  split
  · next hsome => simp [hsome]
  · next hnone => simp [hnone]

/-- Comparing names compares the names with their paths, in both directions. -/
theorem checkNames_eq_ok_iff (hnodup : (other.outline.entries.map Prod.fst).Nodup) :
    checkNames first other span = .ok () ↔
      ∀ entry, entry ∈ first.outline.entries ↔ entry ∈ other.outline.entries := by
  have hnames : checkNames first other span = .ok () ↔
      (∀ expected ∈ first.outline.bindings, checkBinding first other span expected = .ok ()) ∧
        ∀ extra ∈ other.outline.bindings, checkExtra first other span extra = .ok () := by
    rw [checkNames, Except.bind_eq_ok_iff, Except.forM_eq_ok_iff.symm, Except.forM_eq_ok_iff.symm]
    exact ⟨fun ⟨_, h⟩ => h, fun h => ⟨(), h⟩⟩
  simp only [hnames, checkBinding_eq_ok_iff, Outline.exists_binding?_iff hnodup,
    checkExtra_eq_ok_iff, Outline.binding?_isSome_iff]
  constructor
  · rintro ⟨hfirst, hextra⟩
    have hsubset : ∀ entry ∈ first.outline.entries, entry ∈ other.outline.entries := by
      intro entry hentry
      obtain ⟨occurrence, hmem, rfl⟩ := List.mem_map.mp hentry
      exact hfirst occurrence hmem
    refine fun entry => ⟨hsubset entry, fun hentry => ?_⟩
    obtain ⟨occurrence, hmem, rfl⟩ := List.mem_map.mp hentry
    obtain ⟨found, hfound, hname⟩ := List.mem_map.mp (hextra occurrence hmem)
    exact List.inj_on_of_nodup_map hnodup (hsubset found hfound) hentry hname ▸ hfound
  · intro hsame
    refine ⟨fun expected hmem => ?_, fun extra hmem => ?_⟩
    · exact (hsame _).mp (List.mem_map.mpr ⟨expected, hmem, rfl⟩)
    · have hentry := (hsame _).mpr (List.mem_map.mpr ⟨extra, hmem, rfl⟩)
      exact List.mem_map.mpr ⟨_, hentry, rfl⟩

/-- No place that both alternatives describe is given shapes that exclude each
    other. -/
def ShapesGo (left right : Outlined) : Prop :=
  ∀ site ∈ left.outline.shapes, ∀ other, right.outline.shapeAt? site.position = some other →
    site.shape.compatible other.shape

theorem checkShapes_eq_ok_iff : checkShapes left right span = .ok () ↔ ShapesGo left right := by
  rw [checkShapes, Except.forM_eq_ok_iff]
  refine forall₂_congr fun site _ => ?_
  unfold checkShape
  cases right.outline.shapeAt? site.position with
  | none => simp
  | some other => simp

theorem checkAllShapes_eq_ok_iff {outlined : List Outlined} :
    checkAllShapes span outlined = .ok () ↔ outlined.Pairwise ShapesGo := by
  induction outlined with
  | nil => simp [checkAllShapes]
  | cons left rest ih =>
    rw [checkAllShapes, Except.bind_eq_ok_iff, List.pairwise_cons, ← ih]
    have hhead : (rest.forM fun right => checkShapes left right span) = .ok () ↔
        ∀ right ∈ rest, ShapesGo left right := by
      rw [Except.forM_eq_ok_iff]
      exact forall₂_congr fun _ _ => checkShapes_eq_ok_iff
    rw [← hhead]
    exact ⟨fun ⟨_, h⟩ => h, fun h => ⟨(), h⟩⟩

/-- Alternatives without repeated names agree if they bind the same names at the
    same paths and their shapes go with each other. -/
theorem agree_eq_ok_iff {rest : List Outlined} {certificate : Certificate}
    (hnodup : ∀ other ∈ rest, (other.outline.entries.map Prod.fst).Nodup) :
    agree span (first :: rest) = .ok certificate ↔
      ((∀ other ∈ rest, ∀ entry,
        entry ∈ first.outline.entries ↔ entry ∈ other.outline.entries) ∧
        (first :: rest).Pairwise ShapesGo) ∧ ⟨first.outline.entries⟩ = certificate := by
  have hnames : (rest.forM fun other => checkNames first other span) = .ok () ↔
      ∀ other ∈ rest, ∀ entry,
        entry ∈ first.outline.entries ↔ entry ∈ other.outline.entries := by
    rw [Except.forM_eq_ok_iff]
    exact forall₂_congr fun other hmem => checkNames_eq_ok_iff (hnodup other hmem)
  have hpairs : checkAllShapes span (first :: rest) = .ok () ↔ (first :: rest).Pairwise ShapesGo :=
    checkAllShapes_eq_ok_iff
  rw [agree, ← hnames, ← hpairs, Except.bind_eq_ok_iff]
  simp only [Except.bind_eq_ok_iff, Except.pure_eq_ok_iff, Outline.entries]
  constructor
  · rintro ⟨⟨⟩, hfirst, ⟨⟩, hshapes, heq⟩
    exact ⟨⟨hfirst, hshapes⟩, heq⟩
  · rintro ⟨⟨hfirst, hshapes⟩, heq⟩
    exact ⟨(), hfirst, (), hshapes, heq⟩

end Outlined

end OrPattern
