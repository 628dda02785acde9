import OrPattern.Proofs.Compile.Emission
import OrPattern.Proofs.Compile.Retarget
import OrPattern.Proofs.Dispatch.Faithful

namespace OrPattern

open Attempt

variable {options : Options} {base pool start later last : Pool} {expected : Ty} {path : Path}
  {environment otherEnvironment outer : Environment} {parts others : ArmParts} {pattern : Pattern}

/-- These are the parts of the arm for a pattern, emitted at the types of an
    environment from what was collected over a pool that has kept the base types. -/
def EmittedAt (options : Options) (base : Pool) (environment : Environment) (expected : Ty)
    (path : Path) (pattern : Pattern) (parts : ArmParts) : Prop :=
  ∃ emit pool, emit.environment = environment ∧ pool.WellFormed ∧ base.KeptBy pool ∧
    Emitted options emit expected path pool pattern parts

namespace EmittedAt

theorem retarget_self (hemitted : EmittedAt options base environment expected path pattern parts) :
    parts.retarget environment = parts := by
  obtain ⟨emit, pool, rfl, -, -, hemitted⟩ := hemitted
  exact pattern.retarget_of_armParts path parts hemitted.emitted

theorem branch (hemitted : EmittedAt options base environment expected path pattern parts)
    (hbranch : pattern.isBranch) (hknown : base.contains expected) :
    ∃ emit inner, pattern.ownParts path ++ inner = parts ∧
      Gathers (fun step part => part.armParts emit (path ++ [step.clip])) {} pattern.parts inner ∧
      ∀ part ∈ pattern.parts, ∀ piece, part.2.armParts emit (path ++ [part.1.clip]) = .ok piece →
        ∃ type, pattern.partType? base expected part.1 = some type ∧
          EmittedAt options base environment type (path ++ [part.1.clip]) part.2 piece := by
  obtain ⟨emit, pool, rfl, hpool, hkept, hemitted⟩ := hemitted
  obtain ⟨-, inner, rfl, hinner, hparts⟩ := hemitted.branch hbranch hpool
  refine ⟨emit, inner, rfl, hinner, fun part hmem piece hpiece => ?_⟩
  obtain ⟨type, from', htype, hfrom, hfromKept, hpart⟩ := hparts part hmem piece hpiece
  rw [Pattern.partType?_eq hkept hknown] at htype
  exact ⟨type, htype, emit, from', rfl, hfrom, hkept.trans hfromKept, hpart⟩

end EmittedAt

/-- Parts that look alike from an environment, piece by piece, look alike as a
    whole. -/
theorem retarget_eq_of_gathers {emit again : EmitContext} {steps : List (Step × Pattern)}
    (hparts : Gathers (fun step part => part.armParts emit (path ++ [step.clip])) {} steps parts)
    (hothers : Gathers (fun step part => part.armParts again (path ++ [step.clip])) {} steps others)
    (hsteps : ∀ part ∈ steps, ∀ piece other,
      part.2.armParts emit (path ++ [part.1.clip]) = .ok piece →
        part.2.armParts again (path ++ [part.1.clip]) = .ok other →
          piece.retarget outer = other.retarget outer) :
    parts.retarget outer = others.retarget outer := by
  induction hparts generalizing others with
  | nil =>
    cases hothers
    rfl
  | @cons step pattern steps first rest head tail ih =>
    obtain ⟨other, hother, otherRest, hotherRest, rfl⟩ := gathers_cons_iff.mp hothers
    rw [ArmParts.retarget_append, ArmParts.retarget_append,
      hsteps (step, pattern) List.mem_cons_self first other head hother,
      ih hotherRest fun part hmem => hsteps part (List.mem_cons_of_mem _ hmem)]

/-- Arms with these parts, numbered from an index on. -/
def Arm.numbered : Nat → List ArmParts → List Arm
  | _, [] => []
  | index, parts :: rest => ⟨index, parts.checks, parts.slots⟩ :: numbered (index + 1) rest

theorem Arm.length_numbered (index : Nat) (bodies : List ArmParts) :
    (numbered index bodies).length = bodies.length := by
  induction bodies generalizing index with
  | nil => rfl
  | cons parts rest ih => rw [numbered, List.length_cons, List.length_cons, ih]

theorem Arm.retargetAll_numbered (index : Nat) (bodies : List ArmParts) :
    retargetAll environment (numbered index bodies) =
      numbered index (bodies.map (ArmParts.retarget environment)) := by
  induction bodies generalizing index with
  | nil => rfl
  | cons parts rest ih =>
    rw [numbered, retargetAll, ih]
    rfl

/-- A dispatch does not depend on the types at which its arms are seen. -/
theorem Dispatch.ofArms?_retargetAll (arms : List Arm) :
    ofArms? (Arm.retargetAll outer arms) path = ofArms? arms path := by
  simp only [ofArms?, Arm.taggedAt_retargetAll, Arm.untaggedAt_retargetAll]

variable {alternatives : List Pattern} {bodies otherBodies : List ArmParts}

/-- Arms are emitted each from its own alternative and numbered in their order. -/
theorem Evidence.exists_bodies_of_emitArms {evidence : Evidence} {index : Nat} {arms : List Arm}
    {R : Pattern → ArmParts → Prop}
    (harms : evidence.emitArms environment path alternatives index = .ok arms)
    (hparts : ∀ (offset : Nat) pattern parts, alternatives[offset]? = some pattern →
      pattern.armParts ⟨evidence, environment, index + offset⟩ path = .ok parts → R pattern parts) :
    ∃ bodies, List.Forall₂ R alternatives bodies ∧ Arm.numbered index bodies = arms := by
  induction alternatives generalizing index arms with
  | nil =>
    cases harms
    exact ⟨[], .nil, rfl⟩
  | cons pattern rest ih =>
    obtain ⟨parts, hfirst, hrest⟩ := Except.bind_eq_ok_iff.mp harms
    obtain ⟨tail, htail, hresult⟩ := Except.bind_eq_ok_iff.mp hrest
    cases hresult
    obtain ⟨bodies, hbodies, rfl⟩ := ih htail fun offset other piece hother hpiece => by
      rw [Nat.add_assoc, Nat.add_comm 1] at hpiece
      exact hparts (offset + 1) other piece hother hpiece
    exact ⟨parts :: bodies, .cons (hparts 0 pattern parts rfl hfirst) hbodies, rfl⟩

/-- Bodies for the same alternatives look alike from an environment if each two of
    them do. -/
theorem map_retarget_eq_of_forall₂ {R S : Pattern → ArmParts → Prop}
    (hbodies : List.Forall₂ R alternatives bodies)
    (hotherBodies : List.Forall₂ S alternatives otherBodies)
    (hsame : ∀ pattern ∈ alternatives, ∀ parts others, R pattern parts → S pattern others →
      parts.retarget outer = others.retarget outer) :
    bodies.map (ArmParts.retarget outer) = otherBodies.map (ArmParts.retarget outer) := by
  induction hbodies generalizing otherBodies with
  | nil =>
    cases hotherBodies
    rfl
  | @cons pattern parts rest tail hparts _ ih =>
    cases hotherBodies with
    | cons hothers htail =>
      rw [List.map_cons, List.map_cons, hsame pattern List.mem_cons_self _ _ hparts hothers,
        ih htail fun other hmem => hsame other (List.mem_cons_of_mem pattern hmem)]

namespace CompilesTo

variable {span otherSpan : Span} {certificate otherCertificate : Certificate}
  {findings otherFindings : Findings} {middle otherMiddle : Pool} {compiled recompiled : Compiled}

theorem covers (hcompiles : CompilesTo options alternatives expected path span pool
    certificate findings middle compiled later)
    (hnames : ∀ name ∈ (Pattern.bindingsFirst alternatives).map Prod.fst, (outer.type? name).isSome) :
    outer.Covers compiled.environment := by
  intro name hname
  rw [Environment.type?_isSome_iff, hcompiles.environment_names] at hname
  exact hnames name hname

/-- Each arm of a compilation is emitted from its own alternative. -/
theorem exists_bodies (hknown : base.contains expected) (hpool : pool.WellFormed)
    (hkept : base.KeptBy pool)
    (hdistinct : ∀ pattern ∈ alternatives, ∀ node ∈ pattern.nodes, node.StepsDistinct)
    (hcompiles : CompilesTo options alternatives expected path span pool certificate findings middle
      compiled later) :
    ∃ bodies, List.Forall₂ (EmittedAt options base compiled.environment expected path) alternatives
      bodies ∧ Arm.numbered 0 bodies = compiled.procedure.arms := by
  obtain ⟨arms, harms, hprocedure⟩ := Except.bind_eq_ok_iff.mp hcompiles.emitted
  rw [← Except.pure_eq_ok_iff.mp hprocedure]
  refine Evidence.exists_bodies_of_emitArms harms fun offset pattern parts hpattern hparts => ?_
  rw [Nat.zero_add] at hparts
  obtain ⟨from', hfrom, hfromKept, hemitted⟩ :=
    hcompiles.emitted_arm hpool (hkept.contains hknown) hdistinct hpattern hparts
  exact ⟨_, from', rfl, hfrom, hkept.trans hfromKept, hemitted⟩

/-- Procedures for the same alternatives look alike from an environment if the
    bodies of their arms do. -/
theorem retarget_eq_of_bodies
    (hcompiles : CompilesTo options alternatives expected path span pool certificate findings middle
      compiled later)
    (hrecompiles : CompilesTo options alternatives expected path otherSpan start otherCertificate
      otherFindings otherMiddle recompiled last)
    (harms : Arm.numbered 0 bodies = compiled.procedure.arms)
    (hotherArms : Arm.numbered 0 otherBodies = recompiled.procedure.arms)
    (hsame : bodies.map (ArmParts.retarget outer) = otherBodies.map (ArmParts.retarget outer)) :
    compiled.procedure.retarget outer = recompiled.procedure.retarget outer := by
  obtain ⟨arms, -, hprocedure⟩ := Except.bind_eq_ok_iff.mp hcompiles.emitted
  obtain ⟨otherArms, -, hotherProcedure⟩ := Except.bind_eq_ok_iff.mp hrecompiles.emitted
  rw [← Except.pure_eq_ok_iff.mp hprocedure] at harms ⊢
  rw [← Except.pure_eq_ok_iff.mp hotherProcedure] at hotherArms ⊢
  subst harms hotherArms
  have hretargeted : Arm.retargetAll outer (Arm.numbered 0 bodies) =
      Arm.retargetAll outer (Arm.numbered 0 otherBodies) := by
    rw [Arm.retargetAll_numbered, Arm.retargetAll_numbered, hsame]
  have hlength : bodies.length = otherBodies.length := by simpa using congrArg List.length hsame
  have hdispatch : Dispatch.ofArms? (Arm.numbered 0 bodies) path =
      Dispatch.ofArms? (Arm.numbered 0 otherBodies) path := by
    rw [← Dispatch.ofArms?_retargetAll (Arm.numbered 0 bodies), hretargeted,
      Dispatch.ofArms?_retargetAll]
  have hnames : compiled.environment.names = recompiled.environment.names :=
    hcompiles.environment_names.trans hrecompiles.environment_names.symm
  simp only [Procedure.retarget, hretargeted, Arm.length_numbered, hlength, hdispatch, hnames]

end CompilesTo

/-- Laid over one type twice, whatever other types have been entered and whatever
    number it has among its alternatives, a pattern is emitted as arms that look
    alike from every environment with all its names. -/
theorem EmittedAt.retarget_eq (hbase : base.WellFormed) (hknown : base.contains expected)
    (hdistinct : ∀ node ∈ pattern.nodes, node.StepsDistinct)
    (hnames : ∀ name ∈ pattern.names, (outer.type? name).isSome)
    (hcovers : outer.Covers environment) (hcovers' : outer.Covers otherEnvironment)
    (hemitted : EmittedAt options base environment expected path pattern parts)
    (hagain : EmittedAt options base otherEnvironment expected path pattern others) :
    parts.retarget outer = others.retarget outer := by
  induction pattern using Pattern.inductParts
    generalizing environment otherEnvironment expected path parts others with
  | wildcard span | literal value span =>
    obtain ⟨emit, pool, -, -, -, hemitted⟩ := hemitted
    obtain ⟨again, start, -, -, -, hagain⟩ := hagain
    cases hemitted.emitted
    cases hagain.emitted
    rfl
  | bind name ascription span =>
    obtain ⟨emit, pool, -, -, -, hemitted⟩ := hemitted
    obtain ⟨again, start, -, -, -, hagain⟩ := hagain
    obtain ⟨exposed, -, rfl⟩ := hemitted.slot
    obtain ⟨other, -, rfl⟩ := hagain.slot
    obtain ⟨type, htype⟩ := Option.isSome_iff_exists.mp (hnames name List.mem_cons_self)
    simp only [ArmParts.retarget, Check.retargetAll, List.map_cons, List.map_nil, Slot.retarget, htype]
  | branch pattern hbranch ih =>
    obtain ⟨emit, inner, rfl, hinner, hparts⟩ := hemitted.branch hbranch hknown
    obtain ⟨again, otherInner, rfl, hotherInner, hotherParts⟩ := hagain.branch hbranch hknown
    rw [ArmParts.retarget_append, ArmParts.retarget_append]
    refine congrArg (_ ++ ·) (retarget_eq_of_gathers hinner hotherInner ?_)
    intro part hmem piece other hpiece hother
    obtain ⟨type, htype, hpart⟩ := hparts part hmem piece hpiece
    obtain ⟨otherType, hotherType, hotherPart⟩ := hotherParts part hmem other hother
    obtain rfl := Option.some.inj (htype.symm.trans hotherType)
    have hpartNames : ∀ name ∈ part.2.names, (outer.type? name).isSome := by
      intro name hname
      refine hnames name ?_
      rw [Pattern.names, Pattern.bindings_branch hbranch, Pattern.names_parts]
      exact List.mem_flatMap.mpr ⟨part, hmem, hname⟩
    exact ih part hmem (Pattern.partType?_known hbase htype)
      (Pattern.forall_nodes_of_part hdistinct hmem) hpartNames hcovers
      hcovers' hpart hotherPart
  | or alternatives span ih =>
    obtain ⟨emit, pool, rfl, hpool, hkept, hemitted⟩ := hemitted
    obtain ⟨again, start, rfl, hstart, hkept', hagain⟩ := hagain
    obtain ⟨certificate, findings, middle, compiled, later, hcompiles, rfl⟩ := hemitted.choices
    obtain ⟨otherCertificate, otherFindings, otherMiddle, recompiled, last, hrecompiles, rfl⟩ :=
      hagain.choices
    have hinner : ∀ pattern ∈ alternatives, ∀ node ∈ pattern.nodes, node.StepsDistinct :=
      Pattern.stepsDistinct_or_iff.mp hdistinct
    obtain ⟨-, hagree, -⟩ := Pattern.certify_sound hcompiles.certified
    obtain ⟨bodies, hbodies, harms⟩ := hcompiles.exists_bodies hknown hpool hkept hinner
    obtain ⟨otherBodies, hotherBodies, hotherArms⟩ :=
      hrecompiles.exists_bodies hknown hstart hkept' hinner
    have hsame := map_retarget_eq_of_forall₂ hbodies hotherBodies
      fun pattern hmem parts others hemitted hagain =>
        ih pattern hmem hknown (hinner pattern hmem)
          (fun name hname => hnames name ((hagree.names_perm hmem).mem_iff.mp hname))
          (hcompiles.covers hnames) (hrecompiles.covers hnames) hemitted hagain
    simp only [ArmParts.retarget, Check.retargetAll, List.map_nil,
      Procedure.retarget_retarget hcovers, Procedure.retarget_retarget hcovers',
      hcompiles.retarget_eq_of_bodies hrecompiles harms hotherArms hsame]

namespace EmittedAt

theorem map_retarget_self
    (hbodies : List.Forall₂ (EmittedAt options base environment expected path) alternatives bodies) :
    bodies.map (ArmParts.retarget environment) = bodies := by
  induction hbodies with
  | nil => rfl
  | cons hemitted _ ih => rw [List.map_cons, hemitted.retarget_self, ih]

/-- Alternatives that are emitted twice have arms that look alike from every
    environment with all their names. -/
theorem map_retarget_eq (hbase : base.WellFormed) (hknown : base.contains expected)
    (hdistinct : ∀ pattern ∈ alternatives, ∀ node ∈ pattern.nodes, node.StepsDistinct)
    (hnames : ∀ pattern ∈ alternatives, ∀ name ∈ pattern.names, (outer.type? name).isSome)
    (hcovers : outer.Covers environment) (hcovers' : outer.Covers otherEnvironment)
    (hbodies : List.Forall₂ (EmittedAt options base environment expected path) alternatives bodies)
    (hotherBodies : List.Forall₂ (EmittedAt options base otherEnvironment expected path) alternatives
      otherBodies) :
    bodies.map (ArmParts.retarget outer) = otherBodies.map (ArmParts.retarget outer) :=
  map_retarget_eq_of_forall₂ hbodies hotherBodies fun pattern hmem _ _ hemitted hagain =>
    hemitted.retarget_eq hbase hknown (hdistinct pattern hmem) (hnames pattern hmem) hcovers hcovers'
      hagain

/-- Emitted twice at the types of one environment, alternatives have the same arms. -/
theorem bodies_eq (hbase : base.WellFormed) (hknown : base.contains expected)
    (hdistinct : ∀ pattern ∈ alternatives, ∀ node ∈ pattern.nodes, node.StepsDistinct)
    (hnames : ∀ pattern ∈ alternatives, ∀ name ∈ pattern.names, (environment.type? name).isSome)
    (hbodies : List.Forall₂ (EmittedAt options base environment expected path) alternatives bodies)
    (hotherBodies : List.Forall₂ (EmittedAt options base environment expected path) alternatives
      otherBodies) : bodies = otherBodies := by
  rw [← map_retarget_self hbodies, ← map_retarget_self hotherBodies]
  exact map_retarget_eq hbase hknown hdistinct hnames environment.covers_refl environment.covers_refl
    hbodies hotherBodies

end EmittedAt

end OrPattern
