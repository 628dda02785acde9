import OrPattern.Compile
import OrPattern.Proofs.Compile.Yields
import OrPattern.Proofs.Join.Alike

namespace OrPattern

namespace Attempt

variable {α β : Type}

/-- The step does nothing to any pool but add entries, whatever its outcome. -/
def Extends (attempt : Attempt α) : Prop := ∀ pool : Pool, pool.Extends (attempt.runOn pool).2

theorem runOn_get_bind (next : Pool → Attempt α) (pool : Pool) :
    (get >>= next).runOn pool = (next pool).runOn pool := by
  rw [runOn_bind]
  rfl

namespace Extends

theorem pure (value : α) : (pure value : Attempt α).Extends := fun pool => .refl pool

theorem throw (rejection : Rejection) : (throw rejection : Attempt α).Extends :=
  fun pool => .refl pool

theorem liftM (attempt : Except Rejection α) : (liftM attempt : Attempt α).Extends := by
  intro pool
  cases attempt <;> exact .refl pool

theorem bind {attempt : Attempt α} {next : α → Attempt β} (hattempt : attempt.Extends)
    (hnext : ∀ value, (next value).Extends) : (attempt >>= next).Extends := by
  intro pool
  have hfirst := hattempt pool
  rw [runOn_bind]
  rcases hrun : attempt.runOn pool with ⟨_ | value, middle⟩ <;> rw [hrun] at hfirst
  · exact hfirst
  · exact hfirst.trans (hnext value middle)

theorem get_bind {next : Pool → Attempt α} (hnext : ∀ pool, (next pool).Extends) :
    (get >>= next).Extends := by
  intro pool
  rw [runOn_get_bind]
  exact hnext pool pool

theorem joinAll_bind {types : List Ty} {next : Option Ty → Attempt α}
    (hnext : ∀ joined, (next joined).Extends) :
    (modifyGet (fun pool => pool.joinAll types) >>= next).Extends :=
  bind (fun pool => Pool.extends_joinAll pool types) hnext

end Extends

end Attempt

open Attempt

variable {options : Options}

namespace BindingSite

variable (name : Name) (span : Span) (sites : List BindingSite)

theorem extends_upperAscription (first : BindingSite) (rest : List BindingSite) :
    (upperAscription name span sites first rest).Extends := by
  unfold upperAscription
  refine .get_bind fun pool => ?_
  split
  · exact .pure _
  · refine .joinAll_bind fun joined => ?_
    split
    · exact .throw _
    · exact .get_bind fun _ => .throw _

theorem extends_reconcileName : (reconcileName name span sites).Extends := by
  unfold reconcileName
  refine .get_bind fun pool => ?_
  split
  · exact .throw _
  · split
    · refine .joinAll_bind fun joined => ?_
      split
      · exact .pure _
      · exact .throw _
    · refine .bind (extends_upperAscription _ _ _ _ _) fun bound => .get_bind fun _ => ?_
      split
      · exact .throw _
      · exact .pure _

end BindingSite

theorem Evidence.extends_reconcileNames (evidence : Evidence) (span : Span) (names : List Name)
    (environment : Environment) : (evidence.reconcileNames span names environment).Extends := by
  induction names generalizing environment with
  | nil => exact .pure environment
  | cons name names ih =>
    rw [reconcileNames]
    split
    · exact .throw _
    · refine .bind (BindingSite.extends_reconcileName _ _ _) fun found => ?_
      obtain ⟨type, origin⟩ := found
      dsimp only
      split
      · exact ih _
      · exact .throw _

section Compilations

variable {alternatives : List Pattern} {base : Path} {span : Span}
  {collect : Certificate → Attempt Findings}

theorem Evidence.extends_emitted (evidence : Evidence) (environment : Environment) :
    Attempt.Extends (do
      let procedure ← evidence.emit options environment base alternatives
      return (⟨procedure, environment⟩ : Compiled)) :=
  Extends.bind (.liftM _) fun _ => .pure _

theorem Evidence.extends_reconciled (evidence : Evidence) :
    Attempt.Extends (do
      let environment ← evidence.reconcile span
      let procedure ← evidence.emit options environment base alternatives
      return (⟨procedure, environment⟩ : Compiled)) :=
  Extends.bind (evidence.extends_reconcileNames _ _ _) fun _ => evidence.extends_emitted _

theorem extends_collected (certificate : Certificate)
    (hcollect : ∀ certificate, (collect certificate).Extends) :
    Attempt.Extends (do
      let evidence := certificate.evidence alternatives.length (← collect certificate)
      let environment ← evidence.reconcile span
      let procedure ← evidence.emit options environment base alternatives
      return (⟨procedure, environment⟩ : Compiled)) :=
  (hcollect certificate).bind fun _ => Evidence.extends_reconciled _

theorem extends_compileWith (hcollect : ∀ certificate, (collect certificate).Extends) :
    (compileWith options alternatives base span collect).Extends := by
  unfold compileWith
  exact Extends.bind (.liftM _) fun certificate => extends_collected certificate hcollect

theorem extends_compileOrWith (hcollect : ∀ certificate, (collect certificate).Extends) :
    (compileOrWith options alternatives base span collect).Extends := by
  unfold compileOrWith
  split
  · exact .throw _
  · exact extends_compileWith hcollect

end Compilations

namespace Pattern

mutual

theorem extends_collect : ∀ (pattern : Pattern) (context : CollectContext) (expected : Ty)
    (path : Path), (pattern.collect options context expected path).Extends
  | wildcard _, _, _, _ => by
    simp only [collect]
    exact .pure _
  | bind .., _, _, _ => by
    simp only [collect]
    exact Extends.bind (.liftM _) fun _ => .pure _
  | literal .., _, _, _ => by
    simp only [collect]
    refine .get_bind fun pool => ?_
    split
    · exact .pure _
    · exact .throw _
  | variant _ inner _, _, _, _ => by
    simp only [collect]
    refine .get_bind fun pool => ?_
    split
    · exact .throw _
    · split
      · exact .throw _
      · exact extends_collect inner _ _ _
  | tuple elements _, _, _, _ => by
    simp only [collect]
    refine .get_bind fun pool => ?_
    split
    · exact .throw _
    · split
      · exact extends_collectElements elements _ _ _ _
      · exact .throw _
  | record fields _ _, _, _, _ => by
    simp only [collect]
    refine .get_bind fun pool => ?_
    split
    · exact .throw _
    · refine (extends_collectFields fields _ _ _ _).bind fun _ => ?_
      split
      · exact .pure _
      · exact .throw _
  | or alternatives _, _, _, _ => by
    simp only [collect]
    exact (extends_compileOrWith fun _ => extends_collectAlternatives alternatives _ _ _ _).bind
      fun _ => Extends.bind (.liftM _) fun _ => .pure _

theorem extends_collectElements : ∀ (elements : List Pattern) (context : CollectContext)
    (types : List Ty) (index : Nat) (path : Path),
    (collectElements options elements context types index path).Extends
  | [], _, _, _, _ => by
    simp only [collectElements]
    exact .pure _
  | _ :: _, _, [], _, _ => by
    simp only [collectElements]
    exact .pure _
  | element :: rest, _, _ :: _, _, _ => by
    simp only [collectElements]
    exact (extends_collect element _ _ _).bind fun _ =>
      (extends_collectElements rest _ _ _ _).bind fun _ => .pure _

theorem extends_collectFields : ∀ (fields : List (FieldOf Pattern)) (context : CollectContext)
    (expected : Ty) (types : List (Name × Ty)) (path : Path),
    (collectFields options fields context expected types path).Extends
  | [], _, _, _, _ => by
    simp only [collectFields]
    exact .pure _
  | ⟨_, pattern, _⟩ :: rest, _, _, _, _ => by
    simp only [collectFields]
    split
    · exact .throw _
    · exact (extends_collect pattern _ _ _).bind fun _ =>
        (extends_collectFields rest _ _ _ _).bind fun _ => .pure _

theorem extends_collectAlternatives : ∀ (alternatives : List Pattern) (certificate : Certificate)
    (index : Nat) (expected : Ty) (base : Path),
    (collectAlternatives options alternatives certificate index expected base).Extends
  | [], _, _, _, _ => by
    simp only [collectAlternatives]
    exact .pure _
  | pattern :: rest, _, _, _, _ => by
    simp only [collectAlternatives]
    exact (extends_collect pattern _ _ _).bind fun _ =>
      (extends_collectAlternatives rest _ _ _ _).bind fun _ => .pure _

end

/-- A compilation does nothing to the pool but add entries, even if it rejects the
    pattern. -/
theorem extends_compile (options : Options) (pattern : Pattern) (scrutinee : Ty) :
    (pattern.compile options scrutinee).Extends := by
  unfold compile
  split
  · exact extends_compileOrWith fun _ => extends_collectAlternatives _ _ _ _ _
  · exact extends_compileWith fun _ => extends_collectAlternatives _ _ _ _ _

end Pattern

/-- So does a batch of them. -/
theorem extends_compileBatch (options : Options) (items : List (Pattern × Ty)) (pool : Pool) :
    pool.Extends (compileBatch options items pool).2 := by
  induction items generalizing pool with
  | nil => exact .refl pool
  | cons item rest ih =>
    obtain ⟨pattern, scrutinee⟩ := item
    exact (pattern.extends_compile options scrutinee pool).trans (ih _)

end OrPattern
