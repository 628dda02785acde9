import Mathlib.Data.List.Forall2
import OrPattern.Attempt

namespace OrPattern

theorem exists_of_forall₂ {α β : Type} {R : α → β → Prop} {xs : List α} {ys : List β} {y : β}
    (hall : List.Forall₂ R xs ys) (hmem : y ∈ ys) : ∃ x ∈ xs, R x y := by
  induction hall with
  | nil => exact absurd hmem List.not_mem_nil
  | cons head _ ih =>
    rcases List.mem_cons.mp hmem with rfl | hmem
    · exact ⟨_, List.mem_cons_self, head⟩
    · obtain ⟨x, hx, hxy⟩ := ih hmem
      exact ⟨x, List.mem_cons_of_mem _ hx, hxy⟩

namespace Except

variable {ε α β : Type}

theorem bind_eq_ok_iff {attempt : Except ε α} {next : α → Except ε β} {result : β} :
    (attempt >>= next) = .ok result ↔ ∃ value, attempt = .ok value ∧ next value = .ok result := by
  cases attempt with
  | error _ => exact ⟨nofun, nofun⟩
  | ok value =>
    refine ⟨fun h => ⟨value, rfl, h⟩, ?_⟩
    rintro ⟨_, hvalue, h⟩
    cases hvalue
    exact h

theorem pure_eq_ok_iff {value result : α} :
    (pure value : Except ε α) = .ok result ↔ value = result :=
  ⟨fun h => by cases h; rfl, fun h => h ▸ rfl⟩

/-- Checks in a row pass if each of them does. -/
theorem forM_eq_ok_iff {items : List α} {check : α → Except ε Unit} :
    items.forM check = .ok () ↔ ∀ item ∈ items, check item = .ok () := by
  induction items with
  | nil => exact ⟨fun _ => nofun, fun _ => rfl⟩
  | cons item rest ih =>
    rw [List.forall_mem_cons, ← ih, List.forM, bind_eq_ok_iff]
    constructor
    · rintro ⟨⟨⟩, hitem, hrest⟩
      exact ⟨hitem, hrest⟩
    · rintro ⟨hitem, hrest⟩
      exact ⟨(), hitem, hrest⟩

end Except

namespace Attempt

variable {α β : Type} {pool later : Pool}

/-- The step succeeds on a pool with this result, and leaves this pool. -/
def Yields (attempt : Attempt α) (pool : Pool) (result : α) (later : Pool) : Prop :=
  attempt.runOn pool = (.ok result, later)

theorem runOn_map (change : α → β) (attempt : Attempt α) :
    (change <$> attempt).runOn pool =
      ((attempt.runOn pool).1.map change, (attempt.runOn pool).2) := by
  simp only [runOn, ExceptT.run_map, StateT.run_map]
  rcases StateT.run (ExceptT.run attempt) pool with ⟨_ | _, _⟩ <;> rfl

theorem yields_pure_iff {value result : α} :
    Yields (pure value) pool result later ↔ value = result ∧ pool = later := by
  constructor
  · intro h
    cases h
    exact ⟨rfl, rfl⟩
  · rintro ⟨rfl, rfl⟩
    rfl

/-- One step after another: a rejection ends the run. -/
theorem runOn_bind (attempt : Attempt α) (next : α → Attempt β) (pool : Pool) :
    (attempt >>= next).runOn pool =
      match attempt.runOn pool with
      | (.ok value, middle) => (next value).runOn middle
      | (.error rejection, middle) => (.error rejection, middle) := by
  simp only [runOn, ExceptT.run_bind, StateT.run_bind]
  rcases StateT.run (ExceptT.run attempt) pool with ⟨_ | _, _⟩ <;> rfl

/-- One step after another succeeds if both do. -/
theorem yields_bind_iff {attempt : Attempt α} {next : α → Attempt β} {result : β} :
    Yields (attempt >>= next) pool result later ↔
      ∃ value middle, attempt.Yields pool value middle ∧
        (next value).Yields middle result later := by
  unfold Yields
  rw [runOn_bind]
  rcases attempt.runOn pool with ⟨_ | value, middle⟩
  · constructor
    · intro h
      cases h
    · rintro ⟨_, _, h, -⟩
      cases h
  · refine ⟨fun h => ⟨value, middle, rfl, h⟩, ?_⟩
    rintro ⟨_, _, h, hnext⟩
    cases h
    exact hnext

theorem not_yields_throw {rejection : Rejection} {result : α} :
    ¬ Yields (throw rejection) pool result later := by
  intro h
  cases h

theorem yields_liftM_iff {attempt : Except Rejection α} {result : α} :
    Yields (liftM attempt) pool result later ↔ attempt = .ok result ∧ pool = later := by
  cases attempt with
  | error _ =>
    constructor
    · intro h
      cases h
    · rintro ⟨h, -⟩
      cases h
  | ok value =>
    constructor
    · intro h
      cases h
      exact ⟨rfl, rfl⟩
    · rintro ⟨h, rfl⟩
      cases h
      rfl

/-- A step that looks at the pool first. -/
theorem yields_get_bind_iff {next : Pool → Attempt α} {result : α} :
    Yields (get >>= next) pool result later ↔ (next pool).Yields pool result later := by
  rw [yields_bind_iff]
  constructor
  · rintro ⟨_, _, h, hnext⟩
    cases h
    exact hnext
  · exact fun h => ⟨pool, pool, rfl, h⟩

theorem yields_modifyGet_bind_iff {change : Pool → α × Pool} {next : α → Attempt β} {result : β} :
    Yields (modifyGet change >>= next) pool result later ↔
      (next (change pool).1).Yields (change pool).2 result later := by
  rw [yields_bind_iff]
  constructor
  · rintro ⟨_, _, h, hnext⟩
    cases h
    exact hnext
  · exact fun h => ⟨(change pool).1, (change pool).2, rfl, h⟩

/-- A step whose result can be viewed has succeeded. -/
theorem exists_yields_of_view {attempt : Attempt α} {view : α → β} {seen : β}
    (hview : (attempt.runOn pool).1.toOption.map view = some seen) :
    ∃ result later, attempt.runOn pool = (.ok result, later) ∧ view result = seen := by
  rcases hrun : attempt.runOn pool with ⟨outcome, later⟩
  rw [hrun] at hview
  cases outcome with
  | error rejection => cases hview
  | ok result => exact ⟨result, later, rfl, Option.some.inj hview⟩

end Attempt

end OrPattern
