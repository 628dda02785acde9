import OrPattern.Proofs.Compile.BindingPath
import OrPattern.Proofs.Compile.Collected
import OrPattern.Proofs.Compile.Unknown
import OrPattern.Proofs.Dispatch.Faithful

namespace OrPattern

open Attempt

/-- The choices that lead down to a node, from the outermost: where there is one to
    be made, and which alternative is taken. -/
abbrev Route := List (Path × Nat)

/-- A binding node of a pattern that is laid over a type: where it lies and what it
    binds, with the ascription it has and the type of its place. -/
structure PlacedBinding where
  path : Path
  name : Name
  ascription : Option Ty
  type : Ty

/-- Laid over a type at a path, a pattern has this binding node down a route. -/
inductive Pattern.BindsVia (pool : Pool) : Ty → Path → Pattern → Route → PlacedBinding → Prop where
  | bind (expected : Ty) (path : Path) (name : Name) (ascription : Option Ty) (span : Span) :
      BindsVia pool expected path (bind name ascription span) [] ⟨path, name, ascription, expected⟩
  | part {expected partType : Ty} {path : Path} {pattern part : Pattern} {step : Step}
      {route : Route} {binding : PlacedBinding} (mem : (step, part) ∈ pattern.parts)
      (typed : pattern.partType? pool expected step = some partType)
      (rest : BindsVia pool partType (path ++ [step.clip]) part route binding) :
      BindsVia pool expected path pattern route binding
  | alternative {expected : Ty} {path : Path} {alternatives : List Pattern} {choice : Pattern}
      {index : Nat} {span : Span} {route : Route} {binding : PlacedBinding}
      (mem : alternatives[index]? = some choice)
      (rest : BindsVia pool expected path choice route binding) :
      BindsVia pool expected path (or alternatives span) ((path, index) :: route) binding

/-- A procedure has this slot down a route: in an arm of its own, or in one of a
    procedure that such an arm asks. The first path is the one at which the
    procedure chooses. -/
inductive Procedure.HasSlot : Path → Procedure → Route → Slot → Prop where
  | own {base : Path} {procedure : Procedure} {arm : Arm} {slot : Slot}
      (arms : arm ∈ procedure.arms) (slots : slot ∈ arm.slots) :
      HasSlot base procedure [(base, arm.alternative)] slot
  | nested {base path : Path} {procedure inner : Procedure} {arm : Arm} {route : Route} {slot : Slot}
      (arms : arm ∈ procedure.arms) (checks : Check.firstOf path inner ∈ arm.checks)
      (rest : HasSlot path inner route slot) :
      HasSlot base procedure ((base, arm.alternative) :: route) slot

/-- A slot reads what a binding node binds, and shows it at the type that the
    environment gives the name. -/
structure Slot.Shows (environment : Environment) (slot : Slot) (binding : PlacedBinding) :
    Prop where
  path : slot.path = binding.path
  name : slot.name = binding.name
  native : slot.native = binding.ascription.getD binding.type
  exposed : environment.type? slot.name = some slot.exposed
  conversion : slot.conversion = .between slot.native slot.exposed

variable {options : Options} {base pool later : Pool} {expected : Ty} {path : Path} {route : Route}
  {binding other : PlacedBinding} {pattern : Pattern} {alternatives : List Pattern} {span : Span}
  {slot : Slot} {environment outer : Environment}

namespace Pattern

/-- Whatever the route, the node is a binding of the pattern. -/
theorem BindsVia.bindsAt (hbinds : pattern.BindsVia pool expected path route binding) :
    pattern.BindsAt pool expected binding.name binding.ascription binding.type := by
  induction hbinds with
  | bind expected path name ascription span => exact ⟨span, .self _ _⟩
  | part mem typed _ ih =>
    obtain ⟨span, hreaches⟩ := ih
    exact ⟨span, .part mem typed hreaches⟩
  | alternative mem _ ih =>
    obtain ⟨span, hreaches⟩ := ih
    exact ⟨span, .alternative (List.mem_of_getElem? mem) hreaches⟩

theorem bindsVia_branch_iff (hbranch : pattern.isBranch) :
    pattern.BindsVia pool expected path route binding ↔
      ∃ part ∈ pattern.parts, ∃ partType, pattern.partType? pool expected part.1 = some partType ∧
        part.2.BindsVia pool partType (path ++ [part.1.clip]) route binding := by
  constructor
  · intro hbinds
    cases hbinds with
    | bind | alternative => cases hbranch
    | part mem typed rest => exact ⟨_, mem, _, typed, rest⟩
  · rintro ⟨part, hmem, partType, htype, hrest⟩
    exact .part hmem htype hrest

/-- A pattern that binds no name twice has one node for a name down a route. -/
theorem BindsVia.unique (hagree : ∀ node ∈ pattern.nodes, node.ChoicesAgree)
    (hnodup : pattern.names.Nodup) (hbinds : pattern.BindsVia pool expected path route binding)
    (hother : pattern.BindsVia pool expected path route other) (hname : binding.name = other.name) :
    binding = other := by
  induction hbinds with
  | bind expected path name ascription span =>
    cases hother with
    | bind => rfl
    | part mem _ _ => exact absurd mem List.not_mem_nil
  | @part expected partType path pattern part step route binding mem typed rest ih =>
    have hbranch : pattern.isBranch := by
      cases pattern with
      | variant | tuple | record => rfl
      | wildcard | bind | literal | or => exact absurd mem List.not_mem_nil
    obtain ⟨otherPart, hmem, otherType, htype, hrest⟩ := (bindsVia_branch_iff hbranch).mp hother
    have hinner : ∀ part ∈ pattern.parts, ∀ node ∈ part.2.nodes, node.ChoicesAgree :=
      fun _ hmem => forall_nodes_of_part hagree hmem
    have hpart := mem_names_of_bindsAt (hinner _ mem) rest.bindsAt
    have hotherPart := mem_names_of_bindsAt (hinner _ hmem) hrest.bindsAt
    rw [← hname] at hotherPart
    obtain rfl := part_eq_of_mem_names hbranch hnodup mem hmem hpart hotherPart
    cases typed.symm.trans htype
    exact ih (hinner _ mem) (names_nodup_of_part hbranch hnodup mem) hrest hname
  | alternative mem _ ih =>
    cases hother with
    | part hmem _ _ => exact absurd hmem List.not_mem_nil
    | alternative hmem hrest =>
      cases mem.symm.trans hmem
      have hchoice := List.mem_of_getElem? mem
      exact ih (forall_nodes_of_choice hagree hchoice)
        ((hagree _ (self_mem_nodes _)).unique _ hchoice) hrest hname

end Pattern

namespace Slot.Shows

/-- Seen at the types of an enclosing environment, the slot shows the type that this
    gives the name. -/
theorem retarget (hshows : slot.Shows environment binding) (hname : (outer.type? slot.name).isSome) :
    (slot.retarget outer).Shows outer binding := by
  obtain ⟨exposed, hexposed⟩ := Option.isSome_iff_exists.mp hname
  have hseen : slot.retarget outer =
      { slot with exposed, conversion := .between slot.native exposed } := by
    simp only [Slot.retarget, hexposed]
  rw [hseen]
  exact ⟨hshows.path, hshows.name, hshows.native, hexposed, rfl⟩

end Slot.Shows

/-- The slots of the parts of an arm, those of nested procedures too. -/
def ArmParts.HasSlot (parts : ArmParts) (route : Route) (slot : Slot) : Prop :=
  route = [] ∧ slot ∈ parts.slots ∨
    ∃ path inner, Check.firstOf path inner ∈ parts.checks ∧ inner.HasSlot path route slot

namespace ArmParts

variable {parts others : ArmParts}

theorem HasSlot.of_append (hslot : (parts ++ others).HasSlot route slot) :
    parts.HasSlot route slot ∨ others.HasSlot route slot := by
  rcases hslot with ⟨hroute, hmem⟩ | ⟨path, inner, hmem, hinner⟩
  · exact (List.mem_append.mp hmem).imp (fun h => .inl ⟨hroute, h⟩) fun h => .inl ⟨hroute, h⟩
  · exact (List.mem_append.mp hmem).imp (fun h => .inr ⟨path, inner, h, hinner⟩) fun h =>
      .inr ⟨path, inner, h, hinner⟩

theorem not_hasSlot_empty : ¬ ({} : ArmParts).HasSlot route slot := by
  rintro (⟨-, hmem⟩ | ⟨path, inner, hmem, -⟩)
  · exact List.not_mem_nil hmem
  · exact List.not_mem_nil hmem

theorem not_hasSlot_ownParts : ¬ (pattern.ownParts path).HasSlot route slot := by
  cases pattern with
  | variant tag inner span =>
    rintro (⟨-, hmem⟩ | ⟨path, inner, hmem, -⟩)
    · exact List.not_mem_nil hmem
    · cases List.mem_singleton.mp hmem
  | wildcard | bind | literal | tuple | record | or => exact not_hasSlot_empty

end ArmParts

namespace Procedure

variable {procedure : Procedure}

theorem hasSlot_iff :
    procedure.HasSlot path route slot ↔ ∃ arm ∈ procedure.arms, ∃ rest,
      (path, arm.alternative) :: rest = route ∧
        ArmParts.HasSlot ⟨arm.checks, arm.slots⟩ rest slot := by
  constructor
  · intro hslot
    cases hslot with
    | own arms slots => exact ⟨_, arms, [], rfl, .inl ⟨rfl, slots⟩⟩
    | nested arms checks rest => exact ⟨_, arms, _, rfl, .inr ⟨_, _, checks, rest⟩⟩
  · rintro ⟨arm, harm, rest, rfl, ⟨rfl, hmem⟩ | ⟨inner, nested, hmem, hrest⟩⟩
    · exact .own harm hmem
    · exact .nested harm hmem hrest

/-- The slots of a procedure that is seen at the types of an environment are its own
    slots seen at these types. -/
theorem HasSlot.of_retarget (hslot : (procedure.retarget environment).HasSlot path route slot) :
    ∃ original, procedure.HasSlot path route original ∧ slot = original.retarget environment := by
  generalize hseen : procedure.retarget environment = seen at hslot
  induction hslot generalizing procedure with
  | own harm hmem =>
    subst hseen
    obtain ⟨arms, dispatch, names⟩ := procedure
    obtain ⟨arm, harm, halternative, -, hslots⟩ := Arm.exists_of_mem_retargetAll environment harm
    rw [hslots] at hmem
    obtain ⟨original, horiginal, rfl⟩ := List.mem_map.mp hmem
    rw [halternative]
    exact ⟨original, .own harm horiginal, rfl⟩
  | nested harm hcheck _ ih =>
    subst hseen
    obtain ⟨arms, dispatch, names⟩ := procedure
    obtain ⟨arm, harm, halternative, hchecks, -⟩ := Arm.exists_of_mem_retargetAll environment harm
    rw [hchecks] at hcheck
    obtain ⟨inner, hinner, rfl⟩ := Check.exists_of_mem_retargetAll environment hcheck
    obtain ⟨original, horiginal, rfl⟩ := ih rfl
    rw [halternative]
    exact ⟨original, .nested harm hinner horiginal, rfl⟩

end Procedure

/-- The types of the places of a pattern are those that the first pool gives them:
    the pool at hand has kept them, or the pattern looks at no type. -/
def Pattern.Anchored (base pool : Pool) (expected : Ty) (pattern : Pattern) : Prop :=
  pool.WellFormed ∧ base.KeptBy pool ∧ base.contains expected ∨ pattern.Bare

/-- The slots of an arm show the binding nodes of its alternative. -/
def Pattern.SlotsShow (options : Options) (base : Pool) (expected : Ty) (path : Path)
    (pattern : Pattern) : Prop :=
  ∀ (emit : EmitContext) (pool : Pool) (parts : ArmParts),
    pattern.Anchored base pool expected → Emitted options emit expected path pool pattern parts →
    (∀ name ∈ pattern.names, (emit.environment.type? name).isSome) →
    ∀ route slot, parts.HasSlot route slot →
      ∃ binding, pattern.BindsVia base expected path route binding ∧
        slot.Shows emit.environment binding

section Compiles

variable {certificate : Certificate} {findings : Findings} {middle : Pool} {compiled : Compiled}

/-- The slots of a procedure show the binding nodes of the alternatives, if those of
    each arm do. -/
theorem CompilesTo.exists_binding_of_alternatives
    (hanchored : ∀ pattern ∈ alternatives, pattern.Anchored base pool expected)
    (hdistinct : ∀ pattern ∈ alternatives, ∀ node ∈ pattern.nodes, node.StepsDistinct)
    (hcompiles : CompilesTo options alternatives expected path span pool certificate findings middle
      compiled later)
    (hslots : ∀ pattern ∈ alternatives, pattern.SlotsShow options base expected path)
    (hslot : compiled.procedure.HasSlot path route slot) :
    ∃ binding, (Pattern.or alternatives span).BindsVia base expected path route binding ∧
      slot.Shows compiled.environment binding := by
  obtain ⟨-, hagree, -⟩ := Pattern.certify_sound hcompiles.certified
  obtain ⟨arms, harms, hprocedure⟩ := Except.bind_eq_ok_iff.mp hcompiles.emitted
  obtain ⟨arm, harm, rest, rfl, hrest⟩ := Procedure.hasSlot_iff.mp hslot
  rw [← Except.pure_eq_ok_iff.mp hprocedure] at harm
  obtain ⟨offset, pattern, parts, hpattern, hparts, rfl⟩ :=
    Evidence.exists_armParts_of_emitArms harms harm
  rw [Nat.zero_add] at hparts ⊢
  have hmem := List.mem_of_getElem? hpattern
  obtain ⟨start, hstart, hemitted⟩ : ∃ start, pattern.Anchored base start expected ∧
      Emitted options ⟨certificate.evidence alternatives.length findings, compiled.environment, offset⟩
        expected path start pattern parts := by
    rcases hanchored pattern hmem with ⟨hpool, hkept, hknown⟩ | hbare
    · obtain ⟨start, hstart, hkept', hemitted⟩ :=
        hcompiles.emitted_arm hpool (hkept.contains hknown) hdistinct hpattern hparts
      exact ⟨start, .inl ⟨hstart, hkept.trans hkept', hknown⟩, hemitted⟩
    · obtain ⟨start, hemitted⟩ := hcompiles.exists_emitted hdistinct hpattern hparts
      exact ⟨start, .inr hbare, hemitted⟩
  have hnames : ∀ name ∈ pattern.names, (compiled.environment.type? name).isSome := by
    intro name hname
    rw [Environment.type?_isSome_iff, hcompiles.environment_names]
    exact (hagree.names_perm hmem).mem_iff.mp hname
  obtain ⟨binding, hbinds, hshows⟩ :=
    hslots pattern hmem _ start parts hstart hemitted hnames rest slot hrest
  exact ⟨binding, .alternative hpattern hbinds, hshows⟩

end Compiles

/-- By induction on the pattern: a binding is one slot, and a nested procedure is seen
    at the types of the enclosing environment. -/
theorem Pattern.slotsShow (hbase : base.WellFormed) (expected : Ty) (path : Path) (pattern : Pattern)
    (hdistinct : ∀ node ∈ pattern.nodes, node.StepsDistinct) :
    pattern.SlotsShow options base expected path := by
  induction pattern using inductParts generalizing expected path with
  | wildcard | literal =>
    intro emit pool parts _ hemitted _ route slot hslot
    cases hemitted.emitted
    rcases hslot with ⟨-, hmem⟩ | ⟨place, inner, hmem, -⟩
    · exact absurd hmem List.not_mem_nil
    · simp at hmem
  | bind name ascription span =>
    intro emit pool parts _ hemitted _ route slot hslot
    obtain ⟨exposed, hexposed, rfl⟩ := hemitted.slot
    rcases hslot with ⟨rfl, hmem⟩ | ⟨place, inner, hmem, -⟩
    · obtain rfl := List.mem_singleton.mp hmem
      exact ⟨_, .bind expected path name ascription span, rfl, rfl, rfl, hexposed, rfl⟩
    · exact absurd hmem List.not_mem_nil
  | branch pattern hbranch ih =>
    intro emit pool parts hanchored hemitted hnames route slot hslot
    obtain ⟨hpool, hkept, hknown⟩ := hanchored.resolve_right fun hbare => hbare.not_branch hbranch
    obtain ⟨-, inner, rfl, hinner, hpieces⟩ := hemitted.branch hbranch hpool
    refine hinner.fold (P := fun parts => ∀ route slot, parts.HasSlot route slot →
      ∃ binding, pattern.BindsVia base expected path route binding ∧
        slot.Shows emit.environment binding)
      (fun _ _ hslot => absurd hslot ArmParts.not_hasSlot_empty)
      (fun a b ha hb route slot hslot => hslot.of_append.elim (ha route slot) (hb route slot))
      (fun part hmem piece hpiece route slot hslot => ?_) route slot
      (hslot.of_append.resolve_left ArmParts.not_hasSlot_ownParts)
    obtain ⟨type, start, htype, hstart, hkept', hpart⟩ := hpieces part hmem piece hpiece
    rw [partType?_eq hkept hknown] at htype
    have hpartNames : ∀ name ∈ part.2.names, (emit.environment.type? name).isSome := by
      intro name hname
      refine hnames name ?_
      rw [names, bindings_branch hbranch, names_parts]
      exact List.mem_flatMap.mpr ⟨part, hmem, hname⟩
    obtain ⟨binding, hbinds, hshows⟩ := ih part hmem type (path ++ [part.1.clip])
      (forall_nodes_of_part hdistinct hmem) emit start piece
      (.inl ⟨hstart, hkept.trans hkept', partType?_known hbase htype⟩) hpart hpartNames route slot hslot
    exact ⟨binding, .part hmem htype hbinds, hshows⟩
  | or alternatives span ih =>
    intro emit pool parts hanchored hemitted hnames route slot hslot
    obtain ⟨certificate, findings, middle, compiled, later, hcompiles, rfl⟩ := hemitted.choices
    obtain ⟨place, inner, hmem, hinner⟩ := hslot.resolve_left fun h => List.not_mem_nil h.2
    cases List.mem_singleton.mp hmem
    obtain ⟨original, horiginal, rfl⟩ := hinner.of_retarget
    have hchoices : ∀ choice ∈ alternatives, ∀ node ∈ choice.nodes, node.StepsDistinct :=
      stepsDistinct_or_iff.mp hdistinct
    have hanchoredChoices : ∀ choice ∈ alternatives, choice.Anchored base pool expected :=
      fun choice hmem => hanchored.imp id fun hbare => bare_or_iff.mp hbare choice hmem
    obtain ⟨binding, hbinds, hshows⟩ := hcompiles.exists_binding_of_alternatives hanchoredChoices
      hchoices (fun choice hmem => ih choice hmem expected path (hchoices choice hmem)) horiginal
    refine ⟨binding, hbinds, hshows.retarget (hnames _ ?_)⟩
    obtain ⟨-, hagree, hnodes⟩ := certify_sound hcompiles.certified
    rw [hshows.name]
    refine mem_names_of_bindsAt (fun node hnode => ?_) hbinds.bindsAt
    rcases mem_nodes_or_iff.mp hnode with rfl | ⟨choice, hmem, hnode⟩
    · exact hagree
    · exact hnodes choice hmem node hnode

/-- What a slot of a compiled pattern promises: it is seen at the type that the
    environment gives its name, read at the ascription of its binding node or else at
    the type of the place, and these types widen from the place to what is seen.
    A conversion stands exactly where the last step is proper. -/
structure Slot.SoundlyTyped (pool : Pool) (environment : Environment) (slot : Slot)
    (binding : PlacedBinding) : Prop where
  exposed : environment.type? slot.name = some slot.exposed
  native : slot.native = binding.ascription.getD binding.type
  place_below : pool.isSubtype binding.type slot.native = true
  native_below : pool.isSubtype slot.native slot.exposed = true
  identity_iff : slot.conversion = .identity ↔ slot.native = slot.exposed
  upcast_iff : slot.conversion = .upcast ↔ pool.isSubtype slot.exposed slot.native = false

namespace Slot.Shows

/-- Between the place and the shown type nothing more is needed than that the types
    widen. -/
theorem soundlyTyped (hpool : pool.WellFormed) (hshows : slot.Shows environment binding)
    (hplace : pool.Below binding.type slot.native) (hnative : pool.Below slot.native slot.exposed) :
    slot.SoundlyTyped pool environment binding where
  exposed := hshows.exposed
  native := hshows.native
  place_below := hpool.isSubtype_iff.mpr hplace
  native_below := hpool.isSubtype_iff.mpr hnative
  identity_iff := by
    rw [hshows.conversion]
    exact Conversion.between_eq_identity_iff
  upcast_iff := by
    have hback : pool.isSubtype slot.exposed slot.native = true ↔ slot.native = slot.exposed := by
      rw [hpool.isSubtype_iff]
      exact ⟨hnative.antisymm hpool, fun heq => heq ▸ .refl _⟩
    rw [hshows.conversion, Conversion.between, ← Bool.not_eq_true, hback]
    split <;> simp_all

end Slot.Shows

@[simp] theorem EnvironmentEntry.getD_ascription (entry : EnvironmentEntry) :
    entry.ascription.getD entry.type = entry.type := by
  unfold EnvironmentEntry.ascription
  split <;> rfl

theorem Environment.exists_entry_of_type? {name : Name} {type : Ty}
    (htype : environment.type? name = some type) :
    ∃ entry ∈ environment.entries, entry.name = name ∧ entry.type = type := by
  obtain ⟨entry, hentry, heq⟩ := Option.map_eq_some_iff.mp htype
  exact ⟨entry, List.mem_of_find?_eq_some hentry, by simpa using List.find?_some hentry, heq⟩

namespace Pattern

/-- The type of an entry is above what every place of its name is read at, and that is
    above the type of the place. -/
theorem below_entry_of_compile {scrutinee : Ty} {compiled : Compiled} (hpool : pool.WellFormed)
    (hascribed : pattern.AscriptionsKnown pool)
    (hcompile : (pattern.compile options scrutinee).Yields pool compiled later)
    {entry : EnvironmentEntry} (hmem : entry ∈ compiled.environment.entries)
    {ascription : Option Ty} {type : Ty}
    (hbinds : pattern.BindsAt pool scrutinee entry.name ascription type) :
    later.WellFormed ∧ later.Below type (ascription.getD type) ∧
      later.Below (ascription.getD type) entry.type := by
  by_cases hknown : pool.contains scrutinee
  · obtain ⟨hplural, certificate, findings, middle, hcompiles⟩ := compile_yields_iff.mp hcompile
    have hnonempty := alternatives_ne_nil hplural
    obtain ⟨⟨hgrows, -⟩, hlast, -⟩ := hcompiles.grows hpool hknown hnonempty
    obtain ⟨hlater, -⟩ := (hgrows.trans hlast).keeps hpool
    obtain ⟨hsummary, hadmitted⟩ :=
      hcompiles.summary hpool hpool (.refl pool) hknown hnonempty entry hmem
    rw [bindsAt_or_alternatives] at hsummary hadmitted
    refine ⟨hlater, ?_, ?_⟩
    · cases ascription with
      | none => exact .refl type
      | some ascribed => exact hadmitted ascribed type hbinds
    · have hbelow := hsummary.below_effective hlater hbinds
      rwa [EnvironmentEntry.getD_ascription] at hbelow
  · have hbare := bare_of_compile hpool hknown hascribed hcompile
    obtain ⟨rfl, rfl⟩ := hbare.of_bindsAt hbinds
    obtain rfl : later = pool :=
      (congrArg Prod.snd (hcompile.symm.trans (hbare.ignoresPool_compile.yields hcompile pool)))
    rw [(hbare.uniform_compile hcompile entry hmem).1]
    exact ⟨hpool, .refl _, .refl _⟩

/-- Every slot of a compiled pattern, in its own procedure and in nested ones at any
    depth, is that of one binding node of the pattern, and its types widen from the
    type of that node's place through the type it is read at to the one type that the
    whole pattern gives the name. -/
theorem compile_slots_soundly_typed {scrutinee : Ty} {compiled : Compiled} (hpool : pool.Reachable)
    (hdistinct : ∀ node ∈ pattern.nodes, node.StepsDistinct)
    (hascribed : pattern.AscriptionsKnown pool)
    (hcompile : (pattern.compile options scrutinee).runOn pool = (.ok compiled, later))
    (hslot : compiled.procedure.HasSlot [] route slot) :
    ∃ binding, (or pattern.alternatives pattern.span).BindsVia pool scrutinee [] route binding ∧
      binding.path = slot.path ∧ binding.name = slot.name ∧
      (∀ other : PlacedBinding,
        (or pattern.alternatives pattern.span).BindsVia pool scrutinee [] route other →
          other.name = slot.name → other = binding) ∧
      ∀ last, Pool.Grows later last → slot.SoundlyTyped last compiled.environment binding := by
  have hwell := hpool.wellFormed
  obtain ⟨hplural, certificate, findings, middle, hcompiles⟩ := compile_yields_iff.mp hcompile
  have hnonempty := alternatives_ne_nil hplural
  have hchoices : ∀ choice ∈ pattern.alternatives, ∀ node ∈ choice.nodes, node.StepsDistinct :=
    fun _ hmem => forall_nodes_of_alternative hdistinct hmem
  have hanchored : ∀ choice ∈ pattern.alternatives, choice.Anchored pool pool scrutinee := by
    intro choice hmem
    by_cases hknown : pool.contains scrutinee
    · exact .inl ⟨hwell, .refl pool, hknown⟩
    · exact .inr (bare_iff_alternatives.mp (bare_of_compile hwell hknown hascribed hcompile) choice hmem)
  obtain ⟨binding, hbinds, hshows⟩ := hcompiles.exists_binding_of_alternatives hanchored hchoices
    (fun choice hmem => choice.slotsShow hwell scrutinee [] (hchoices choice hmem)) hslot
  refine ⟨binding, hbinds, hshows.path.symm, hshows.name.symm, fun other hother hname => ?_,
    fun last hgrows => ?_⟩
  · obtain ⟨-, hagree, hnodes⟩ := certify_sound hcompiles.certified
    have hnodup : (or pattern.alternatives pattern.span).names.Nodup := hagree.nodup_first
    refine hother.unique (fun node hnode => ?_) hnodup hbinds (hname.trans hshows.name)
    rcases mem_nodes_or_iff.mp hnode with rfl | ⟨choice, hmem, hnode⟩
    · exact hagree
    · exact hnodes choice hmem node hnode
  · obtain ⟨entry, hentry, hname, hexposed⟩ := Environment.exists_entry_of_type? hshows.exposed
    have hplace := hbinds.bindsAt
    rw [bindsAt_or_alternatives, ← hshows.name, ← hname] at hplace
    obtain ⟨hlater, hadmitted, hbelow⟩ :=
      below_entry_of_compile hwell hascribed hcompile hentry hplace
    rw [← hshows.native] at hadmitted hbelow
    rw [hexposed] at hbelow
    obtain ⟨hlast, hkept⟩ := hgrows.keeps hlater
    exact hshows.soundlyTyped hlast (hadmitted.mono hkept) (hbelow.mono hkept)

/-- A nested choice over an 8-bit integer whose second alternative states a wider type:
    the slot of the first one is seen at that type from outside. -/
theorem compile_slots_soundly_typed_of_choice :
    let inner := or [bind ⟨1⟩ none Span.none, bind ⟨1⟩ (some .i16) Span.none] Span.none
    let pattern := or [inner, bind ⟨1⟩ (some .i64) Span.none] Span.none
    let slot : Slot := ⟨⟨1⟩, [], .i8, .i64, .upcast⟩
    ∃ compiled later, (pattern.compile {} .i8).runOn Pool.initial = (.ok compiled, later) ∧
      compiled.procedure.HasSlot [] [([], 0), ([], 0)] slot ∧
      ∃ binding, pattern.BindsVia Pool.initial .i8 [] [([], 0), ([], 0)] binding ∧
        slot.SoundlyTyped later compiled.environment binding := by
  intro inner pattern slot
  have hdistinct : ∀ node ∈ pattern.nodes, node.StepsDistinct := by
    simp [pattern, inner, nodes, nodesList, StepsDistinct]
  have hascribed : pattern.AscriptionsKnown Pool.initial := by
    intro name ascribed span hnode
    simp only [pattern, inner, nodes, nodesList, List.append_nil, List.cons_append,
      List.nil_append, List.mem_cons, List.not_mem_nil, or_false, reduceCtorEq, false_or, bind.injEq,
      Option.some.injEq, false_and, and_false] at hnode
    rcases hnode with ⟨-, rfl, -⟩ | ⟨-, rfl, -⟩ <;> decide
  obtain ⟨compiled, later, hcompile, hslot⟩ : ∃ compiled later,
      (pattern.compile {} .i8).runOn Pool.initial = (.ok compiled, later) ∧
        compiled.procedure.HasSlot [] [([], 0), ([], 0)] slot := by
    refine ⟨_, _, rfl, Procedure.hasSlot_iff.mpr ⟨_, List.mem_cons_self, _, rfl, .inr ?_⟩⟩
    refine ⟨_, _, List.mem_cons_self, Procedure.hasSlot_iff.mpr ⟨_, List.mem_cons_self, _, rfl, ?_⟩⟩
    exact .inl ⟨rfl, List.mem_cons_self⟩
  obtain ⟨binding, hbinds, -, -, -, htyped⟩ :=
    compile_slots_soundly_typed (.refl Pool.initial) hdistinct hascribed hcompile hslot
  exact ⟨compiled, later, hcompile, hslot, binding, hbinds, htyped later (.refl later)⟩

end Pattern

end OrPattern
