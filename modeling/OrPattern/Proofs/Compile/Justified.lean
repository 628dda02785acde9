import OrPattern.Proofs.Compile.Conflict
import OrPattern.Proofs.Compile.Summary
import OrPattern.Proofs.Shape.Justified

namespace OrPattern

open Attempt

/-- The node describes no value of the type at its place, for this reason. -/
inductive ScrutineeProblem.Describes (pool : Pool) (place : Ty) : Pattern → ScrutineeProblem → Prop where
  | notASumType {tag : Name} {inner : Pattern} {span : Span} (absent : pool.variants? place = none) :
      Describes pool place (.variant tag inner span) .notASumType
  | unknownTag {tag : Name} {inner : Pattern} {span : Span} {variants : List (Name × Ty)}
      (declared : pool.variants? place = some variants) (unlisted : variants.lookup tag = none) :
      Describes pool place (.variant tag inner span) (.unknownTag tag)
  | notATuple {elements : List Pattern} {span : Span} (absent : pool.elements? place = none) :
      Describes pool place (.tuple elements span) (.notATuple elements.length)
  | tupleArity {elements : List Pattern} {span : Span} {types : List Ty}
      (declared : pool.elements? place = some types) (apart : types.length ≠ elements.length) :
      Describes pool place (.tuple elements span) (.tupleArity types.length elements.length)
  | notARecord {fields : List (FieldOf Pattern)} {rest : Bool} {span : Span}
      (absent : pool.fields? place = none) : Describes pool place (.record fields rest span) .notARecord
  | unknownField {fields : List (FieldOf Pattern)} {rest : Bool} {span : Span}
      {types : List (Name × Ty)} {field : FieldOf Pattern}
      (declared : pool.fields? place = some types) (mentioned : field ∈ fields)
      (unlisted : types.lookup field.name = none) :
      Describes pool place (.record fields rest span) (.unknownField field.name)
  | missingFields {fields : List (FieldOf Pattern)} {span : Span} {types : List (Name × Ty)}
      {missing : List Name} (declared : pool.fields? place = some types)
      (left : missing = (types.map Prod.fst).filter fun name => !(fields.map FieldOf.name).contains name)
      (some : missing ≠ []) : Describes pool place (.record fields false span) (.missingFields missing)
  | literalMismatch {value : Literal} {span : Span} (misfit : pool.literalFits place value = false) :
      Describes pool place (.literal value span) (.literalMismatch value)

/-- Laid over a type, the pattern gives the name this type: the uppermost of its
    ascriptions or, without any, the least type above those of its places. -/
def Pattern.Gives (base later : Pool) (expected : Ty) (pattern : Pattern) (name : Name) (type : Ty) :
    Prop :=
  ∃ ascription inferred, Summary later (Pattern.BindsAt base expected pattern name) ascription inferred ∧
    ascription.getD inferred = type

/-- What a rejection says is true of the pattern that was being compiled, at a path
    and laid over a type, if the pattern around it comes that far. The base pool is
    the one that the compilation started on, the later one that it left. -/
inductive Cause.JustifiedBy (base later : Pool) (place : Option Ty) (path : Path) (unit : Pattern) :
    Cause → Prop where
  | shape {problem : ShapeProblem} (justified : problem.JustifiedBy path unit) :
      JustifiedBy base later place path unit (.shape problem)
  | noCommonType {expected : Ty} {name : Name} {types : List (Nat × Ty)}
      (typed : place = some expected)
      (numbered : types.map Prod.fst = List.range unit.alternatives.length)
      (given : ∀ entry ∈ types, ∃ choice, unit.alternatives[entry.1]? = some choice ∧
        choice.Gives base later expected name entry.2)
      (absent : ∀ last, later.Develops last →
        ∀ bound, ¬ ∀ entry ∈ types, last.isSubtype entry.2 bound = true) :
      JustifiedBy base later place path unit (.noCommonType name types)
  | misascribed {expected : Ty} {name : Name} {alternative : Nat} {choice : Pattern}
      {ascribed found : Ty} (typed : place = some expected)
      (chosen : unit.alternatives[alternative]? = some choice)
      (stated : choice.BindsAt base expected name (some ascribed) found)
      (refused : later.isSubtype found ascribed = false) :
      JustifiedBy base later place path unit (.ascription name alternative ascribed found)
  | outranked {expected : Ty} {name : Name} {alternative : Nat} {choice : Pattern}
      {ascribed found own : Ty} (typed : place = some expected)
      (chosen : unit.alternatives[alternative]? = some choice)
      (stated : unit.BindsAt base expected name (some ascribed) own)
      (given : choice.Gives base later expected name found)
      (refused : later.isSubtype found ascribed = false) :
      JustifiedBy base later place path unit (.ascription name alternative ascribed found)
  | scrutinee {expected type : Ty} {alternative : Nat} {choice node : Pattern} {position : Position}
      {problem : ScrutineeProblem} (typed : place = some expected)
      (chosen : unit.alternatives[alternative]? = some choice)
      (stands : choice.Stands position node) (there : base.typeAt? expected position = some type)
      (describes : problem.Describes base type node) :
      JustifiedBy base later place path unit
        (.scrutinee alternative (path ++ position.path) type problem)

/-- Apart from a node that does not fit its type, which is pointed at itself, the
    rejection points at the pattern that was being compiled. -/
structure Rejection.JustifiedBy (base later : Pool) (place : Option Ty) (path : Path) (unit : Pattern)
    (rejection : Rejection) : Prop where
  cause : rejection.cause.JustifiedBy base later place path unit
  span : (∃ alternative path type problem, rejection.cause = .scrutinee alternative path type problem) ∨
    rejection.span = unit.span

variable {base later : Pool} {expected : Ty} {path : Path} {unit choice pattern : Pattern}
  {rejection : Rejection}

/-- With one site for each alternative, the sites count the alternatives. -/
theorem BindingSite.alternatives_eq_range {alternatives : List Pattern} {sites : List BindingSite}
    {R : Pattern × Nat → BindingSite → Prop}
    (hsites : List.Forall₂ (fun choice site => site.alternative = choice.2 ∧ R choice site)
      alternatives.zipIdx sites) : sites.map alternative = List.range alternatives.length := by
  rw [List.range_eq_range', ← List.zipIdx_map_snd, ← List.forall₂_eq_eq_eq, List.forall₂_map_left_iff,
    List.forall₂_map_right_iff]
  exact hsites.flip.imp fun _ _ h => h.1

/-- What is wrong with the types at the sites of a name is wrong with those that the
    alternatives give it. -/
theorem BindingSite.Conflict.justifiedBy {name : Name} {sites : List BindingSite} {cause : Cause}
    (hlater : later.WellFormed)
    (hsites : List.Forall₂ (fun choice site => site.alternative = choice.2 ∧
      Summary later (Pattern.BindsAt base expected choice.1 name) site.ascription site.inferred)
      unit.alternatives.zipIdx sites)
    (hconflict : Conflict later name sites cause) :
    cause.JustifiedBy base later (some expected) path unit := by
  have hsite : ∀ site ∈ sites, ∃ choice, unit.alternatives[site.alternative]? = some choice ∧
      Summary later (choice.BindsAt base expected name) site.ascription site.inferred := by
    intro site hmem
    obtain ⟨⟨choice, index⟩, hchoice, halternative, hsummary⟩ := exists_of_forall₂ hsites hmem
    rw [halternative]
    exact ⟨choice, List.mk_mem_zipIdx_iff_getElem?.mp hchoice, hsummary⟩
  cases hconflict with
  | noCommonType absent =>
    refine .noCommonType rfl ?_ (fun entry hentry => ?_) fun last hdevelops bound hbound => ?_
    · exact List.map_map.trans (alternatives_eq_range hsites)
    · obtain ⟨site, hmem, rfl⟩ := List.mem_map.mp hentry
      obtain ⟨choice, hchoice, hsummary⟩ := hsite site hmem
      exact ⟨choice, hchoice, site.ascription, site.inferred, hsummary, rfl⟩
    · obtain ⟨hlast, hkept⟩ := hdevelops.keeps hlater
      refine absent last hlast hkept bound fun type htype => ?_
      obtain ⟨site, hmem, rfl⟩ := List.mem_map.mp htype
      exact hlast.isSubtype_iff.mp (hbound _ (List.mem_map.mpr ⟨site, hmem, rfl⟩))
  | @misascribed site ascribed mem stated refused =>
    obtain ⟨choice, hchoice, hsummary⟩ := hsite site mem
    refine .misascribed rfl hchoice ((hsummary.own ascribed stated).resolve_left ?_) refused
    intro heq
    rw [heq, Pool.isSubtype_self] at refused
    cases refused
  | @outranked bound site ascribed boundMem stated mem refused =>
    obtain ⟨choice, hchoice, hsummary⟩ := hsite site mem
    obtain ⟨other, hother, hbound⟩ := hsite bound boundMem
    obtain ⟨own, hown⟩ := hbound.stated ascribed stated
    exact .outranked rfl hchoice
      (Pattern.bindsAt_alternatives_iff.mpr ⟨other, List.mem_of_getElem? hother, hown⟩)
      ⟨site.ascription, site.inferred, hsummary, rfl⟩ refused

namespace Pattern

/-- A pattern that is compiled on its own, itself included, is rejected within this
    one, and what the rejection says is true of it. -/
def Refused (base later : Pool) (expected : Ty) (path : Path) (unit : Pattern)
    (rejection : Rejection) : Prop :=
  ∃ position inner, unit.UnitAt position inner ∧ rejection.JustifiedBy base later
    (base.typeAt? expected position) (path ++ Position.path position) inner

/-- A node of an alternative does not fit its type, or an or-pattern in it is
    rejected. -/
inductive RefusedBelow (base later : Pool) (alternative : Nat) (expected : Ty) (path : Path)
    (pattern : Pattern) (rejection : Rejection) : Prop where
  | misfit {position : Position} {node : Pattern} {type : Ty} {problem : ScrutineeProblem}
      (stands : pattern.Stands position node) (there : base.typeAt? expected position = some type)
      (describes : problem.Describes base type node)
      (cause : rejection.cause = .scrutinee alternative (path ++ position.path) type problem) :
      RefusedBelow base later alternative expected path pattern rejection
  | nested {position : Position} {alternatives : List Pattern} {span : Span} {type : Ty}
      (stands : pattern.Stands position (or alternatives span))
      (there : base.typeAt? expected position = some type)
      (refused : (or alternatives span).Refused base later type (path ++ position.path) rejection) :
      RefusedBelow base later alternative expected path pattern rejection

theorem Refused.of_unit
    (hjustified : rejection.JustifiedBy base later (some expected) path unit) :
    unit.Refused base later expected path rejection := by
  refine ⟨[], unit, .whole, ?_⟩
  rwa [Position.path_nil, List.append_nil]

theorem Refused.of_shape (hrejected : unit.ShapeRejected path rejection) :
    unit.Refused base later expected path rejection := by
  obtain ⟨position, inner, hunit, hspan, problem, hcause, hproblem⟩ := hrejected
  exact ⟨position, inner, hunit, hcause ▸ .shape hproblem, .inr hspan⟩

theorem Refused.of_choice {alternative : Nat} (hchoice : unit.alternatives[alternative]? = some choice)
    (hbelow : choice.RefusedBelow base later alternative expected path rejection) :
    unit.Refused base later expected path rejection := by
  cases hbelow with
  | misfit stands there describes cause =>
    exact .of_unit ⟨cause ▸ .scrutinee rfl hchoice stands there describes, .inl ⟨_, _, _, _, cause⟩⟩
  | @nested position alternatives span type stands there refused =>
    obtain ⟨rest, inner, hunit, hjustified⟩ := refused
    refine ⟨position ++ rest, inner,
      (UnitAt.nested .whole (List.mem_of_getElem? hchoice) stands).trans hunit, ?_⟩
    rwa [Pool.typeAt?_append, there, Option.bind_some, Position.path_append, ← List.append_assoc]

theorem RefusedBelow.of_part {alternative : Nat} {part : Step × Pattern} {type : Ty}
    (hdistinct : pattern.StepsDistinct)
    (hmem : part ∈ pattern.parts) (htype : pattern.partType? base expected part.1 = some type)
    (hbelow : part.2.RefusedBelow base later alternative type (path ++ [part.1.clip]) rejection) :
    pattern.RefusedBelow base later alternative expected path rejection := by
  have hthere : ∀ position : Position,
      base.typeAt? expected (pattern.positionStep part.1.clip :: position) =
        base.typeAt? type position := by
    intro position
    rw [Pool.typeAt?, ← partType?_eq_component? hdistinct hmem, htype, Option.bind_some]
  cases hbelow with
  | misfit stands there describes cause =>
    refine .misfit (.part hmem stands) ((hthere _).trans there) describes ?_
    rw [cause, Stands.path_cons hmem, List.append_assoc]
  | nested stands there refused =>
    refine .nested (.part hmem stands) ((hthere _).trans there) ?_
    rwa [Stands.path_cons hmem, ← List.append_assoc]

end Pattern

end OrPattern
