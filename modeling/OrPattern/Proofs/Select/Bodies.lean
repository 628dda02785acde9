import OrPattern.Proofs.Compile.Again
import OrPattern.Proofs.Select.Places

namespace OrPattern

open Attempt

variable {options : Options} {base pool later : Pool} {expected : Ty} {path : Path}
  {root : Value} {names : List Name}

/-- The first of these parts that accept a value, by number, with what it binds. -/
def ArmParts.first? (root : Value) : List ArmParts → Option (Nat × List BoundValue)
  | [] => none
  | parts :: rest =>
    match parts.bindings? root with
    | some bindings => some (0, bindings)
    | none => (first? root rest).map fun found => (found.1 + 1, found.2)

namespace ArmParts

variable {bodies others : List ArmParts}

theorem lt_of_first? {found : Nat × List BoundValue} (hfound : first? root bodies = some found) :
    found.1 < bodies.length := by
  induction bodies generalizing found with
  | nil => cases hfound
  | cons parts rest ih =>
    simp only [first?] at hfound
    split at hfound
    · cases hfound
      exact Nat.succ_pos _
    · obtain ⟨other, hother, rfl⟩ := Option.map_eq_some_iff.mp hfound
      exact Nat.succ_lt_succ (ih hother)

/-- Of parts in a row the first ones go first. -/
theorem first?_append :
    first? root (bodies ++ others) =
      (first? root bodies).or ((first? root others).map fun found =>
        (bodies.length + found.1, found.2)) := by
  induction bodies with
  | nil => simp [first?]
  | cons parts rest ih =>
    simp only [List.cons_append, first?]
    cases parts.bindings? root with
    | some bindings => rfl
    | none =>
      rw [ih, Option.map_or, Option.map_map]
      simp only [Function.comp_def, List.length_cons, Nat.add_right_comm]

theorem first?_singleton (parts : ArmParts) :
    first? root [parts] = (parts.bindings? root).map fun bindings => (0, bindings) := by
  simp only [first?]
  cases parts.bindings? root <;> rfl

end ArmParts

@[simp] theorem Procedure.arms_retarget (environment : Environment) (procedure : Procedure) :
    (procedure.retarget environment).arms = Arm.retargetAll environment procedure.arms := by
  cases procedure
  rfl

@[simp] theorem Procedure.names_retarget (environment : Environment) (procedure : Procedure) :
    (procedure.retarget environment).names = procedure.names := by
  cases procedure
  rfl

/-- Numbered arms choose the first of them that accepts the value. -/
theorem firstSelection_numbered (index : Nat) (bodies : List ArmParts) :
    firstSelection (Arm.outcomes root names (Arm.numbered index bodies)) none =
      (ArmParts.first? root bodies).map fun found =>
        ⟨index + found.1, BoundValue.arrange names found.2⟩ := by
  induction bodies generalizing index with
  | nil => rfl
  | cons parts rest ih =>
    rw [Arm.numbered, Arm.outcomes_cons, ArmParts.first?]
    cases parts.bindings? root with
    | some bindings => rfl
    | none =>
      have hrest := ih (index + 1)
      simp only [firstSelection] at hrest ⊢
      rw [Option.map_none, List.findSome?_cons_of_isNone rfl, hrest, Option.map_map]
      simp only [Function.comp_def, Nat.add_assoc, Nat.add_comm 1]

/-- A procedure with faithful dispatches chooses the first body of its arms that
    accepts the value. -/
theorem Procedure.Faithful.select_of_bodies {procedure : Procedure} {bodies : List ArmParts}
    (hfaithful : procedure.Faithful) (harms : Arm.numbered 0 bodies = procedure.arms) :
    procedure.select root = (ArmParts.first? root bodies).map fun found =>
      ⟨found.1, BoundValue.arrange procedure.names found.2⟩ := by
  rw [hfaithful.select_eq, ← hfaithful.selectLinear_eq, selectLinear, ← harms,
    firstSelection_numbered]
  simp only [Nat.zero_add]

/-- An arm that only asks a nested procedure binds what that selects. -/
theorem ArmParts.bindings?_firstOf (procedure : Procedure) :
    ({ checks := [.firstOf path procedure] } : ArmParts).bindings? root =
      (procedure.select root).map Selection.bindings := by
  simp only [bindings?, Check.bindings?, List.mapM_nil]
  cases procedure.select root with
  | none => rfl
  | some selection => simp [bothCaptures]

variable {alternatives : List Pattern} {span : Span} {certificate : Certificate} {findings : Findings}
  {middle : Pool} {compiled : Compiled} {outer environment : Environment}
  {bodies : List ArmParts}

/-- A selection binds names of the environment, at whatever types they are seen. -/
theorem CompilesTo.mem_names_of_select
    (hdistinct : ∀ pattern ∈ alternatives, ∀ node ∈ pattern.nodes, node.StepsDistinct)
    (hcompiles : CompilesTo options alternatives expected path span pool certificate findings middle
      compiled later) {selection : Selection}
    (hselect : (compiled.procedure.retarget outer).select root = some selection) :
    ∀ bound ∈ selection.bindings, bound.name ∈ compiled.environment.names := by
  rw [Procedure.select_retarget] at hselect
  obtain ⟨original, horiginal, rfl⟩ := Option.map_eq_some_iff.mp hselect
  intro bound hmem
  obtain ⟨own, hown, rfl⟩ := List.mem_map.mp hmem
  have hread := hcompiles.readAt hdistinct horiginal
  obtain ⟨place, hplace, heq⟩ := List.mem_map.mp (hread.mem_iff.mp (List.mem_map_of_mem hown))
  rw [hcompiles.environment_names, ← Pattern.names_of_certify hcompiles.certified,
    BoundValue.name_retarget, ← (Prod.mk.inj heq).1]
  exact List.mem_map_of_mem hplace

/-- The arm for a nested or-pattern binds what the first of the arms for its own
    alternatives binds, in another order. -/
theorem EmittedAt.bindings?_or {own : ArmParts} (hbase : base.WellFormed)
    (hknown : base.contains expected)
    (hdistinct : ∀ pattern ∈ alternatives, ∀ node ∈ pattern.nodes, node.StepsDistinct)
    (hnames : ∀ pattern ∈ alternatives, ∀ name ∈ pattern.names, (environment.type? name).isSome)
    (hown : EmittedAt options base environment expected path (.or alternatives span) own)
    (hbodies : List.Forall₂ (EmittedAt options base environment expected path) alternatives bodies) :
    Option.Rel (fun bindings found => BoundValue.arrange environment.names bindings =
        BoundValue.arrange environment.names found.2)
      (own.bindings? root) (ArmParts.first? root bodies) := by
  obtain ⟨emit, pool, rfl, hpool, hkept, hemitted⟩ := hown
  obtain ⟨certificate, findings, middle, compiled, later, hcompiles, rfl⟩ := hemitted.choices
  obtain ⟨innerBodies, hinnerBodies, harms⟩ := hcompiles.exists_bodies hknown hpool hkept hdistinct
  have hcovers : emit.environment.Covers compiled.environment := by
    cases alternatives with
    | nil => exact hcompiles.covers nofun
    | cons first rest => exact hcompiles.covers (hnames first List.mem_cons_self)
  have hsame := EmittedAt.map_retarget_eq hbase hknown hdistinct hnames hcovers
    emit.environment.covers_refl hinnerBodies hbodies
  rw [EmittedAt.map_retarget_self hbodies] at hsame
  have hretargeted : Arm.numbered 0 bodies = (compiled.procedure.retarget emit.environment).arms := by
    rw [Procedure.arms_retarget, ← harms, Arm.retargetAll_numbered, hsame]
  have hselect : (compiled.procedure.retarget emit.environment).select root = _ :=
    (hcompiles.faithful.retarget emit.environment).select_of_bodies hretargeted
  rw [Procedure.names_retarget, hcompiles.procedure_names] at hselect
  rw [ArmParts.bindings?_firstOf]
  cases hfirst : ArmParts.first? root bodies with
  | none =>
    rw [hselect, hfirst]
    exact .none
  | some found =>
    rw [hfirst] at hselect
    rw [hselect]
    refine .some (BoundValue.arrange_arrange (fun bound hmem => ?_) _)
    have hbound := hcompiles.mem_names_of_select hdistinct hselect bound
      ((BoundValue.arrange_perm _ _).mem_iff.mpr hmem)
    rw [← Environment.type?_isSome_iff] at hbound ⊢
    exact hcovers _ hbound

end OrPattern
