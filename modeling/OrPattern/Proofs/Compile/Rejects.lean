import OrPattern.Compile
import OrPattern.Proofs.Compile.Yields
import OrPattern.Proofs.Pattern.Parts

namespace OrPattern

/-- The result is no rejection but one of the allowed ones. -/
def RejectsOnly {α : Type} (allowed : Rejection → Prop) (result : Except Rejection α) : Prop :=
  ∀ rejection, result = .error rejection → allowed rejection

variable {α β : Type} {allowed : Rejection → Prop}

namespace RejectsOnly

theorem ok (value : α) : RejectsOnly allowed (.ok value) := nofun

theorem error {rejection : Rejection} (hallowed : allowed rejection) :
    RejectsOnly allowed (.error rejection : Except Rejection α) := by
  intro other hother
  cases hother
  exact hallowed

theorem bind {attempt : Except Rejection α} {next : α → Except Rejection β}
    (hattempt : RejectsOnly allowed attempt)
    (hnext : ∀ value, attempt = .ok value → RejectsOnly allowed (next value)) :
    RejectsOnly allowed (attempt >>= next) := by
  cases attempt with
  | error rejection => exact error (hattempt rejection rfl)
  | ok value => exact hnext value rfl

theorem mono {other : Rejection → Prop} {result : Except Rejection α}
    (hresult : RejectsOnly allowed result) (hother : ∀ rejection, allowed rejection → other rejection) :
    RejectsOnly other result :=
  fun rejection hrejected => hother rejection (hresult rejection hrejected)

theorem forM {items : List α} {check : α → Except Rejection Unit}
    (hitems : ∀ item ∈ items, RejectsOnly allowed (check item)) :
    RejectsOnly allowed (items.forM check) := by
  induction items with
  | nil => exact ok ()
  | cons item rest ih =>
    have hsteps : (item :: rest).forM check = (check item >>= fun _ => rest.forM check) := rfl
    rw [hsteps]
    exact (hitems item List.mem_cons_self).bind fun _ _ =>
      ih fun other hmem => hitems other (List.mem_cons_of_mem item hmem)

end RejectsOnly

namespace Attempt

/-- The step rejects for nothing but the allowed reasons, whatever the pool. -/
def RejectsOnly (allowed : Rejection → Prop) (attempt : Attempt α) : Prop :=
  ∀ pool, OrPattern.RejectsOnly allowed (attempt.runOn pool).1

namespace RejectsOnly

theorem pure (value : α) : RejectsOnly allowed (pure value) := fun _ => .ok value

theorem throw {rejection : Rejection} (hallowed : allowed rejection) :
    RejectsOnly allowed (throw rejection : Attempt α) := fun _ => .error hallowed

theorem liftM {attempt : Except Rejection α} (hattempt : OrPattern.RejectsOnly allowed attempt) :
    RejectsOnly allowed (liftM attempt : Attempt α) := by
  intro pool
  cases attempt <;> exact hattempt

/-- The second step has to do only with what the first one yields. -/
theorem bind {attempt : Attempt α} {next : α → Attempt β} (hattempt : attempt.RejectsOnly allowed)
    (hnext : ∀ pool value later, attempt.Yields pool value later →
      (next value).RejectsOnly allowed) : (attempt >>= next).RejectsOnly allowed := by
  intro pool
  rw [runOn_bind]
  cases hrun : attempt.runOn pool with
  | mk result middle =>
    cases result with
    | error rejection => exact .error (hattempt pool rejection (congrArg Prod.fst hrun))
    | ok value => exact hnext pool value middle hrun middle

theorem get_bind {next : Pool → Attempt α} (hnext : ∀ pool, (next pool).RejectsOnly allowed) :
    (get >>= next).RejectsOnly allowed :=
  bind (fun _ => .ok _) fun _ value _ _ => hnext value

theorem modifyGet_bind {change : Pool → α × Pool} {next : α → Attempt β}
    (hnext : ∀ value, (next value).RejectsOnly allowed) :
    (modifyGet change >>= next).RejectsOnly allowed :=
  bind (fun _ => .ok _) fun _ value _ _ => hnext value

end RejectsOnly

section InTurn

variable {ι κ : Type} {attempts : ι → κ → Attempt α} {items : List ι}

/-- Items are attempted one after the other, each of them in one of several ways. Once
    the items before it have been attempted with success, an item rejects for nothing
    but the allowed reasons. -/
def RejectsInTurn (attempts : ι → κ → Attempt α) (allowed : Rejection → Prop) : List ι → Prop
  | [] => True
  | item :: rest => (∀ key, (attempts item key).RejectsOnly allowed) ∧
      ((∃ key pool value later, (attempts item key).Yields pool value later) →
        RejectsInTurn attempts allowed rest)

theorem RejectsInTurn.of_forall
    (hitems : ∀ item ∈ items, ∀ key, (attempts item key).RejectsOnly allowed) :
    RejectsInTurn attempts allowed items := by
  induction items with
  | nil => exact trivial
  | cons item rest ih =>
    rw [List.forall_mem_cons] at hitems
    exact ⟨hitems.1, fun _ => ih hitems.2⟩

end InTurn

/-- Started on this pool, the step rejects for nothing but what is allowed on the pool
    that it leaves. -/
def RejectsFrom (pool : Pool) (allowed : Pool → Rejection → Prop) (attempt : Attempt α) : Prop :=
  ∀ rejection later, attempt.runOn pool = (.error rejection, later) → allowed later rejection

namespace RejectsFrom

variable {pool : Pool} {allowed : Pool → Rejection → Prop}

theorem pure (value : α) : RejectsFrom pool allowed (pure value) := by
  intro rejection later hrejected
  cases hrejected

theorem throw {rejection : Rejection} (hallowed : allowed pool rejection) :
    RejectsFrom pool allowed (throw rejection : Attempt α) := by
  intro other later hrejected
  cases hrejected
  exact hallowed

theorem liftM {attempt : Except Rejection α} (hattempt : OrPattern.RejectsOnly (allowed pool) attempt) :
    RejectsFrom pool allowed (liftM attempt : Attempt α) := by
  intro rejection later hrejected
  cases attempt with
  | error other =>
    cases hrejected
    exact hattempt _ rfl
  | ok value => cases hrejected

theorem bind {attempt : Attempt α} {next : α → Attempt β} (hattempt : attempt.RejectsFrom pool allowed)
    (hnext : ∀ value middle, attempt.Yields pool value middle →
      (next value).RejectsFrom middle allowed) : (attempt >>= next).RejectsFrom pool allowed := by
  intro rejection later hrejected
  rw [runOn_bind] at hrejected
  cases hrun : attempt.runOn pool with
  | mk result middle =>
    rw [hrun] at hrejected
    cases result with
    | error other =>
      cases hrejected
      exact hattempt _ _ hrun
    | ok value => exact hnext value middle hrun rejection later hrejected

theorem get_bind {next : Pool → Attempt α} (hnext : (next pool).RejectsFrom pool allowed) :
    (get >>= next).RejectsFrom pool allowed := by
  refine bind (fun rejection later hrejected => by cases hrejected) fun value middle hyields => ?_
  cases hyields
  exact hnext

theorem modifyGet_bind {change : Pool → α × Pool} {next : α → Attempt β}
    (hnext : (next (change pool).1).RejectsFrom (change pool).2 allowed) :
    (modifyGet change >>= next).RejectsFrom pool allowed := by
  refine bind (fun rejection later hrejected => by cases hrejected) fun value middle hyields => ?_
  cases hyields
  exact hnext

theorem mono {attempt : Attempt α} {other : Pool → Rejection → Prop}
    (hattempt : attempt.RejectsFrom pool allowed)
    (hother : ∀ later rejection, allowed later rejection → other later rejection) :
    attempt.RejectsFrom pool other :=
  fun rejection later hrejected => hother later rejection (hattempt rejection later hrejected)

end RejectsFrom

end Attempt

/-- A shape is to blame, so no site has a type at issue. -/
def Rejection.IsShape (rejection : Rejection) : Prop :=
  ∃ (problem : ShapeProblem) (span : Span) (sites : List Implicated),
    (∀ site ∈ sites, site.type = none) ∧ rejection = .ofShape problem span sites

theorem rejectsOnly_ofShape (problem : ShapeProblem) (span : Span) {one other : Implicated}
    (hone : one.type = none) (hother : other.type = none) :
    RejectsOnly Rejection.IsShape
      (.error (.ofShape problem span [one, other]) : Except Rejection α) :=
  .error ⟨problem, span, _, List.forall_mem_cons.mpr ⟨hone, List.forall_mem_singleton.mpr hother⟩,
    rfl⟩

namespace Outlined

theorem rejectsOnly_checkNames (first other : Outlined) (span : Span) :
    RejectsOnly Rejection.IsShape (checkNames first other span) := by
  refine (RejectsOnly.forM fun occurrence _ => ?_).bind fun _ _ => .forM fun occurrence _ => ?_
  · unfold checkBinding
    split
    · exact rejectsOnly_ofShape _ _ rfl rfl
    · split
      · exact .ok ()
      · exact rejectsOnly_ofShape _ _ rfl rfl
  · unfold checkExtra
    split
    · exact .ok ()
    · exact rejectsOnly_ofShape _ _ rfl rfl

theorem rejectsOnly_checkAllShapes (span : Span) (outlined : List Outlined) :
    RejectsOnly Rejection.IsShape (checkAllShapes span outlined) := by
  induction outlined with
  | nil => exact .ok ()
  | cons left rest ih =>
    refine (RejectsOnly.forM fun right _ => .forM fun site _ => ?_).bind fun _ _ => ih
    unfold checkShape
    split
    · exact .ok ()
    · split
      · exact .ok ()
      · exact rejectsOnly_ofShape _ _ rfl rfl

theorem rejectsOnly_agree (span : Span) (outlined : List Outlined) :
    RejectsOnly Rejection.IsShape (agree span outlined) := by
  cases outlined with
  | nil => exact .ok _
  | cons first rest =>
    exact (RejectsOnly.forM fun other _ => rejectsOnly_checkNames first other span).bind fun _ _ =>
      (rejectsOnly_checkAllShapes span (first :: rest)).bind fun _ _ => .ok _

end Outlined

theorem Outline.rejectsOnly_checkRepeats (outline : Outline) (alternative : Nat) (span : Span) :
    RejectsOnly Rejection.IsShape (outline.checkRepeats alternative span) := by
  unfold checkRepeats
  split
  · exact rejectsOnly_ofShape _ _ rfl rfl
  · exact .ok ()

namespace Pattern

variable {path : Path} {position : Position}

theorem rejectsOnly_outlineElements {elements : List Pattern} {index : Nat}
    (helements : ∀ part ∈ (elements.zipIdx index).map fun (element, index) =>
      ((.element index : Step), element), ∀ step : PositionStep,
        RejectsOnly allowed (part.2.outline (path ++ [part.1.clip]) (position ++ [step]))) :
    RejectsOnly allowed (outlineElements elements index path position) := by
  induction elements generalizing index with
  | nil =>
    simp only [outlineElements]
    exact .ok _
  | cons element rest ih =>
    rw [List.zipIdx_cons, List.map_cons, List.forall_mem_cons] at helements
    simp only [outlineElements]
    exact (helements.1 _).bind fun _ _ => (ih helements.2).bind fun _ _ => .ok _

theorem rejectsOnly_outlineFields {fields : List (FieldOf Pattern)}
    (hfields : ∀ part ∈ fields.map fun field => ((.field field.name : Step), field.pattern),
      ∀ step : PositionStep,
        RejectsOnly allowed (part.2.outline (path ++ [part.1.clip]) (position ++ [step]))) :
    RejectsOnly allowed (outlineFields fields path position) := by
  induction fields with
  | nil =>
    simp only [outlineFields]
    exact .ok _
  | cons field rest ih =>
    rw [List.map_cons, List.forall_mem_cons] at hfields
    simp only [outlineFields]
    exact (hfields.1 _).bind fun _ _ => (ih hfields.2).bind fun _ _ => .ok _

/-- Of a variant, tuple or record nothing but its parts can be refused. -/
theorem rejectsOnly_outline_branch {pattern : Pattern} (hbranch : pattern.isBranch)
    (hparts : ∀ part ∈ pattern.parts, ∀ step : PositionStep,
      RejectsOnly allowed (part.2.outline (path ++ [part.1.clip]) (position ++ [step]))) :
    RejectsOnly allowed (pattern.outline path position) := by
  cases pattern with
  | wildcard | bind | literal | or => cases hbranch
  | variant tag inner span =>
    simp only [outline]
    exact (hparts _ List.mem_cons_self _).bind fun _ _ => .ok _
  | tuple elements span =>
    simp only [outline]
    exact (rejectsOnly_outlineElements hparts).bind fun _ _ => .ok _
  | record fields rest span =>
    simp only [outline]
    exact (rejectsOnly_outlineFields hparts).bind fun _ _ => .ok _

/-- An or-pattern is refused for what its alternatives are refused for together. -/
theorem rejectsOnly_outline_or {alternatives : List Pattern} {span : Span}
    (hcertify : RejectsOnly allowed (certify alternatives path span)) :
    RejectsOnly allowed ((or alternatives span).outline path position) := by
  -- The first two steps of the outline are those of the certificate.
  rw [outline, ← bind_assoc]
  exact hcertify.bind fun _ _ => .ok _

theorem rejectsOnly_outlineAlternatives {alternatives : List Pattern} {index : Nat} {base : Path}
    {span : Span} (houtlines : ∀ pattern ∈ alternatives,
      RejectsOnly Rejection.IsShape (pattern.outline base [])) :
    RejectsOnly Rejection.IsShape (outlineAlternatives alternatives index base span) := by
  induction alternatives generalizing index with
  | nil => exact .ok _
  | cons pattern rest ih =>
    rw [List.forall_mem_cons] at houtlines
    simp only [outlineAlternatives]
    exact houtlines.1.bind fun outline _ => (outline.rejectsOnly_checkRepeats _ _).bind fun _ _ =>
      (ih houtlines.2).bind fun _ _ => .ok _

theorem rejectsOnly_certify_of_outlines {alternatives : List Pattern} {base : Path} {span : Span}
    (houtlines : ∀ pattern ∈ alternatives,
      RejectsOnly Rejection.IsShape (pattern.outline base [])) :
    RejectsOnly Rejection.IsShape (certify alternatives base span) :=
  (rejectsOnly_outlineAlternatives houtlines).bind fun outlined _ =>
    Outlined.rejectsOnly_agree span outlined

theorem rejectsOnly_outline (pattern : Pattern) (path : Path) (position : Position) :
    RejectsOnly Rejection.IsShape (pattern.outline path position) := by
  induction pattern using inductParts generalizing path position with
  | wildcard | bind | literal => exact .ok _
  | branch pattern hbranch ih =>
    exact rejectsOnly_outline_branch hbranch fun part hmem _ => ih part hmem _ _
  | or alternatives span ih =>
    exact rejectsOnly_outline_or
      (rejectsOnly_certify_of_outlines fun pattern hmem => ih pattern hmem path [])

/-- Certifying alternatives compares them with each other and with nothing else. -/
theorem rejectsOnly_certify (alternatives : List Pattern) (base : Path) (span : Span) :
    RejectsOnly Rejection.IsShape (certify alternatives base span) :=
  rejectsOnly_certify_of_outlines fun pattern _ => pattern.rejectsOnly_outline base []

end Pattern

/-- The types of a pattern are to blame, or those that it is laid over. -/
def Cause.isTyping : Cause → Bool
  | .noCommonType .. | .ascription .. | .scrutinee .. => true
  | .shape _ | .fault _ => false

section Typing

variable {options : Options} {context : CollectContext} {expected : Ty} {path : Path}
  {alternatives : List Pattern} {span : Span}
  (hallowed : ∀ rejection : Rejection, rejection.cause.isTyping → allowed rejection)
include hallowed

namespace BindingSite

variable {name : Name} {sites : List BindingSite}

theorem rejectsOnly_upperAscription (first : BindingSite) (rest : List BindingSite) :
    (upperAscription name span sites first rest).RejectsOnly allowed := by
  unfold upperAscription
  refine .get_bind fun pool => ?_
  split
  · exact .pure _
  · refine .modifyGet_bind fun joined => ?_
    split
    · exact .throw (hallowed _ rfl)
    · exact .get_bind fun _ => .throw (hallowed _ rfl)

/-- Finding the type of a name looks at types only. -/
theorem rejectsOnly_reconcileName : (reconcileName name span sites).RejectsOnly allowed := by
  unfold reconcileName
  refine .get_bind fun pool => ?_
  split
  · exact .throw (hallowed _ rfl)
  · split
    · refine .modifyGet_bind fun joined => ?_
      split
      · exact .pure _
      · exact .throw (hallowed _ rfl)
    · refine .bind (rejectsOnly_upperAscription hallowed _ _) fun _ bound _ _ => .get_bind fun _ => ?_
      split
      · exact .throw (hallowed _ rfl)
      · exact .pure _

end BindingSite

namespace Pattern

omit hallowed in
theorem rejectsOnly_collectElements {elements : List Pattern} {types : List Ty} {index : Nat}
    (helements : Attempt.RejectsInTurn (fun part type =>
        part.2.collect options context type (path ++ [part.1.clip])) allowed
      ((elements.zipIdx index).map fun (element, index) => ((.element index : Step), element))) :
    (collectElements options elements context types index path).RejectsOnly allowed := by
  induction elements generalizing types index with
  | nil =>
    simp only [collectElements]
    exact .pure _
  | cons element rest ih =>
    rw [List.zipIdx_cons, List.map_cons] at helements
    obtain ⟨hfirst, hrest⟩ := helements
    cases types with
    | nil =>
      simp only [collectElements]
      exact .pure _
    | cons type types =>
      simp only [collectElements]
      exact (hfirst type).bind fun pool found later hfound =>
        (ih (hrest ⟨type, pool, found, later, hfound⟩)).bind fun _ _ _ _ => .pure _

theorem rejectsOnly_collectFields {fields : List (FieldOf Pattern)} {types : List (Name × Ty)}
    (hfields : Attempt.RejectsInTurn (fun part type =>
        part.2.collect options context type (path ++ [part.1.clip])) allowed
      (fields.map fun field => ((.field field.name : Step), field.pattern))) :
    (collectFields options fields context expected types path).RejectsOnly allowed := by
  induction fields with
  | nil =>
    simp only [collectFields]
    exact .pure _
  | cons field rest ih =>
    rw [List.map_cons] at hfields
    obtain ⟨hfirst, hrest⟩ := hfields
    simp only [collectFields]
    split
    · exact .throw (hallowed _ rfl)
    · exact (hfirst _).bind fun pool found later hfound =>
        (ih (hrest ⟨_, pool, found, later, hfound⟩)).bind fun _ _ _ _ => .pure _

/-- Of a node only the fit is checked on top of its parts. -/
theorem rejectsOnly_collect_branch {pattern : Pattern} (hbranch : pattern.isBranch)
    (hparts : Attempt.RejectsInTurn (fun part type =>
      part.2.collect options context type (path ++ [part.1.clip])) allowed pattern.parts) :
    (pattern.collect options context expected path).RejectsOnly allowed := by
  cases pattern with
  | wildcard | bind | literal | or => cases hbranch
  | variant tag inner span =>
    simp only [collect]
    refine .get_bind fun pool => ?_
    split
    · exact .throw (hallowed _ rfl)
    · split
      · exact .throw (hallowed _ rfl)
      · exact hparts.1 _
  | tuple elements span =>
    simp only [collect]
    refine .get_bind fun pool => ?_
    split
    · exact .throw (hallowed _ rfl)
    · split
      · exact rejectsOnly_collectElements hparts
      · exact .throw (hallowed _ rfl)
  | record fields rest span =>
    simp only [collect]
    refine .get_bind fun pool => ?_
    split
    · exact .throw (hallowed _ rfl)
    · refine (rejectsOnly_collectFields hallowed hparts).bind fun _ _ _ _ => ?_
      split
      · exact .pure _
      · exact .throw (hallowed _ rfl)

theorem rejectsOnly_collect_literal {value : Literal} :
    ((literal value span).collect options context expected path).RejectsOnly allowed := by
  simp only [collect]
  refine .get_bind fun pool => ?_
  split
  · exact .pure _
  · exact .throw (hallowed _ rfl)

omit hallowed in
theorem rejectsOnly_collectAlternatives {certificate : Certificate} {index : Nat}
    (halternatives : Attempt.RejectsInTurn (fun (pattern : Pattern) alternative =>
      pattern.collect options ⟨certificate, alternative⟩ expected path) allowed alternatives) :
    (collectAlternatives options alternatives certificate index expected path).RejectsOnly
      allowed := by
  induction alternatives generalizing index with
  | nil =>
    simp only [collectAlternatives]
    exact .pure _
  | cons pattern rest ih =>
    obtain ⟨hfirst, hrest⟩ := halternatives
    simp only [collectAlternatives]
    exact (hfirst index).bind fun pool found later hfound =>
      (ih (hrest ⟨index, pool, found, later, hfound⟩)).bind fun _ _ _ _ => .pure _

end Pattern

end Typing

section Faults

variable {options : Options} {context : CollectContext} {expected : Ty} {path : Path}
  {alternatives : List Pattern} {span : Span} {emit : EmitContext}

namespace Pattern

theorem rejectsOnly_armPartsElements {elements : List Pattern} {index : Nat}
    (helements : ∀ part ∈ (elements.zipIdx index).map fun (element, index) =>
      ((.element index : Step), element),
        RejectsOnly allowed (part.2.armParts emit (path ++ [part.1.clip]))) :
    RejectsOnly allowed (armPartsElements emit elements index path) := by
  induction elements generalizing index with
  | nil =>
    simp only [armPartsElements]
    exact .ok _
  | cons element rest ih =>
    rw [List.zipIdx_cons, List.map_cons, List.forall_mem_cons] at helements
    simp only [armPartsElements]
    exact helements.1.bind fun _ _ => (ih helements.2).bind fun _ _ => .ok _

theorem rejectsOnly_armPartsFields {fields : List (FieldOf Pattern)}
    (hfields : ∀ part ∈ fields.map fun field => ((.field field.name : Step), field.pattern),
      RejectsOnly allowed (part.2.armParts emit (path ++ [part.1.clip]))) :
    RejectsOnly allowed (armPartsFields emit fields path) := by
  induction fields with
  | nil =>
    simp only [armPartsFields]
    exact .ok _
  | cons field rest ih =>
    rw [List.map_cons, List.forall_mem_cons] at hfields
    simp only [armPartsFields]
    exact hfields.1.bind fun _ _ => (ih hfields.2).bind fun _ _ => .ok _

theorem rejectsOnly_armParts_branch {pattern : Pattern} (hbranch : pattern.isBranch)
    (hparts : ∀ part ∈ pattern.parts,
      RejectsOnly allowed (part.2.armParts emit (path ++ [part.1.clip]))) :
    RejectsOnly allowed (pattern.armParts emit path) := by
  cases pattern with
  | wildcard | bind | literal | or => cases hbranch
  | variant tag inner span =>
    simp only [armParts]
    exact (hparts _ List.mem_cons_self).bind fun _ _ => .ok _
  | tuple elements span =>
    simp only [armParts]
    exact rejectsOnly_armPartsElements hparts
  | record fields rest span =>
    simp only [armParts]
    exact rejectsOnly_armPartsFields hparts

end Pattern

variable (hallowed : ∀ (fault : Fault) (span : Span), allowed (Rejection.ofFault fault span))
include hallowed

namespace CollectContext

theorem rejectsOnly_site {name : Name} {ascription : Option Ty} {nested : Bool} :
    RejectsOnly allowed (context.site name ascription expected path span nested) := by
  unfold site
  split
  · exact .error (hallowed _ _)
  · split
    · exact .ok _
    · exact .error (hallowed _ _)

theorem rejectsOnly_nestedSites {procedure : Procedure} {entries : List EnvironmentEntry} :
    RejectsOnly allowed (context.nestedSites procedure span entries) := by
  induction entries with
  | nil => exact .ok []
  | cons entry rest ih =>
    simp only [nestedSites]
    split
    · exact .error (hallowed _ _)
    · exact (rejectsOnly_site hallowed).bind fun _ _ => ih.bind fun _ _ => .ok _

end CollectContext

namespace EmitContext

theorem rejectsOnly_slot {name : Name} : RejectsOnly allowed (emit.slot name path span) := by
  unfold slot
  split
  · exact .error (hallowed _ _)
  · split
    · exact .error (hallowed _ _)
    · exact .ok _

theorem rejectsOnly_nestedCheck : RejectsOnly allowed (emit.nestedCheck path span) := by
  unfold nestedCheck
  split
  · exact .error (hallowed _ _)
  · exact .ok _

end EmitContext

theorem Pattern.rejectsOnly_armParts (pattern : Pattern) (path : Path) :
    RejectsOnly allowed (pattern.armParts emit path) := by
  induction pattern using inductParts generalizing path with
  | wildcard | literal => exact .ok _
  | bind name ascription span =>
    simp only [armParts]
    exact (EmitContext.rejectsOnly_slot hallowed).bind fun _ _ => .ok _
  | branch pattern hbranch ih =>
    exact rejectsOnly_armParts_branch hbranch fun part hmem => ih part hmem _
  | or alternatives span =>
    simp only [armParts]
    exact (EmitContext.rejectsOnly_nestedCheck hallowed).bind fun _ _ => .ok _

/-- Emission has nothing to find wrong with a pattern. -/
theorem Evidence.rejectsOnly_emit {evidence : Evidence} {environment : Environment} :
    RejectsOnly allowed (evidence.emit options environment path alternatives) := by
  have harms : ∀ index, RejectsOnly allowed
      (evidence.emitArms environment path alternatives index) := by
    induction alternatives with
    | nil => exact fun _ => .ok []
    | cons pattern rest ih =>
      exact fun index => (pattern.rejectsOnly_armParts hallowed path).bind fun _ _ =>
        (ih (index + 1)).bind fun _ _ => .ok _
  exact (harms 0).bind fun _ _ => .ok _

end Faults

end OrPattern
