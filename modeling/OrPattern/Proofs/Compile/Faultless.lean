import OrPattern.Proofs.Compile.Emission
import OrPattern.Proofs.Compile.Rejects
import OrPattern.Proofs.Compile.Sites

namespace OrPattern

/-- The pattern or its types are to blame, not a disagreement between phases. -/
def Rejection.Faultless (rejection : Rejection) : Prop :=
  ∀ fault, rejection.cause ≠ .fault fault

theorem Rejection.faultless_of_isTyping (rejection : Rejection) (htyping : rejection.cause.isTyping) :
    rejection.Faultless := by
  intro fault hfault
  rw [hfault] at htyping
  cases htyping

theorem Rejection.IsShape.faultless {rejection : Rejection} (hshape : rejection.IsShape) :
    rejection.Faultless := by
  obtain ⟨problem, span, sites, -, rfl⟩ := hshape
  intro fault hfault
  cases hfault

namespace Attempt

variable {α : Type}

/-- The step never ends in a disagreement between phases, whatever the pool. -/
def Faultless (attempt : Attempt α) : Prop := attempt.RejectsOnly Rejection.Faultless

end Attempt

open Attempt

variable {options : Options} {context : CollectContext} {expected : Ty} {path : Path}
  {alternatives : List Pattern} {span : Span}

/-- All names find their types or are rejected for them, if each has one site for
    every alternative and none is listed twice. -/
theorem Evidence.faultless_reconcileNames {evidence : Evidence} {names : List Name}
    {environment : Environment}
    (hcount : ∀ name ∈ names, (evidence.sites name).length = evidence.alternatives)
    (hunique : names.Nodup) (hfresh : ∀ name ∈ names, name ∉ environment.names) :
    (evidence.reconcileNames span names environment).Faultless := by
  induction names generalizing environment with
  | nil => exact .pure environment
  | cons name names ih =>
    obtain ⟨hnew, hunique⟩ := List.nodup_cons.mp hunique
    rw [reconcileNames, if_neg (not_not.mpr (hcount name List.mem_cons_self))]
    refine .bind (BindingSite.rejectsOnly_reconcileName Rejection.faultless_of_isTyping)
      fun _ found _ _ => ?_
    have hinsert : environment.insert? ⟨name, found.1, found.2⟩ =
        some ⟨environment.entries ++ [⟨name, found.1, found.2⟩]⟩ := by
      refine if_neg fun hcontains => hfresh name List.mem_cons_self ?_
      simpa [Environment.contains, Environment.names] using hcontains
    simp only [hinsert]
    refine ih (fun other hmem => hcount other (List.mem_cons_of_mem name hmem)) hunique ?_
    intro other hmem
    rw [Environment.names_of_insert? hinsert, List.mem_append, List.mem_singleton, not_or]
    refine ⟨hfresh other (List.mem_cons_of_mem name hmem), ?_⟩
    rintro rfl
    exact hnew hmem

/-- The phases after certification agree with it, so alternatives are compiled or
    rejected for what they are, if each of them is collected from without a
    fault. -/
theorem faultless_compileWith
    (halternatives : ∀ certificate, Pattern.certify alternatives path span = .ok certificate →
      ∀ pattern ∈ alternatives, ∀ alternative,
        (pattern.collect options ⟨certificate, alternative⟩ expected path).Faultless) :
    (compileWith options alternatives path span fun certificate =>
      Pattern.collectAlternatives options alternatives certificate 0 expected path).Faultless := by
  unfold compileWith
  have hshape := (Pattern.rejectsOnly_certify alternatives path span).mono fun _ =>
    Rejection.IsShape.faultless
  refine (RejectsOnly.liftM hshape).bind fun _ certificate _ hcertify => ?_
  have hcertify := (yields_liftM_iff.mp hcertify).1
  obtain ⟨-, hagree, -⟩ := Pattern.certify_sound hcertify
  have hnames := Pattern.names_of_certify hcertify
  refine (Pattern.rejectsOnly_collectAlternatives
    (.of_forall (halternatives certificate hcertify))).bind fun pool findings middle hcollects => ?_
  dsimp only
  refine Attempt.RejectsOnly.bind ?_ fun _ environment _ hreconciled => ?_
  · refine Evidence.faultless_reconcileNames (fun name hname => ?_) ?_ fun _ _ => List.not_mem_nil
    · have hlisted : name ∈ (Pattern.bindingsFirst alternatives).map Prod.fst := hnames ▸ hname
      exact Pattern.length_sites_of_collectAlternatives hcollects hagree.unique
        fun pattern hmem => (hagree.names_perm hmem).mem_iff.mpr hlisted
    · rw [show (certificate.evidence alternatives.length findings).names = _ from hnames]
      exact hagree.nodup_first
  · have henvironment : environment.names = (Pattern.bindingsFirst alternatives).map Prod.fst :=
      (Evidence.names_of_reconcileNames hreconciled).trans hnames
    obtain ⟨procedure, hprocedure⟩ : ∃ procedure, (certificate.evidence alternatives.length
        findings).emit options environment path alternatives = .ok procedure := by
      refine Evidence.exists_emit hcollects fun pattern hmem name hname => ?_
      rw [henvironment]
      exact (hagree.names_perm hmem).mem_iff.mp hname
    refine (Attempt.RejectsOnly.liftM ?_).bind fun _ _ _ _ => .pure _
    rw [hprocedure]
    exact .ok procedure

theorem faultless_compileOrWith {collect : Certificate → Attempt Findings}
    (hcompile : (compileWith options alternatives path span collect).Faultless) :
    (compileOrWith options alternatives path span collect).Faultless := by
  unfold compileOrWith
  split
  · exact .throw fun _ hfault => by cases hfault
  · exact hcompile

namespace Pattern

/-- Collecting from a pattern whose names are certified where it binds them ends in
    no fault. -/
theorem faultless_collect (pattern : Pattern) (context : CollectContext) (expected : Ty)
    (path : Path) (hdistinct : ∀ node ∈ pattern.nodes, node.StepsDistinct)
    (hlists : context.certificate.Lists path pattern) :
    (pattern.collect options context expected path).Faultless := by
  induction pattern using inductParts generalizing context expected path with
  | wildcard span =>
    simp only [collect]
    exact .pure _
  | literal value span =>
    exact rejectsOnly_collect_literal Rejection.faultless_of_isTyping
  | bind name ascription span =>
    have hplace : context.certificate.path? name = some path := by
      have hlisted := hlists (name, path ++ []) List.mem_cons_self
      rwa [List.append_nil] at hlisted
    simp only [collect]
    rw [CollectContext.site_eq_ok_iff.mpr ⟨hplace, rfl⟩]
    exact (Attempt.RejectsOnly.liftM (.ok _)).bind fun _ _ _ _ => .pure _
  | branch pattern hbranch ih =>
    refine rejectsOnly_collect_branch Rejection.faultless_of_isTyping hbranch
      (.of_forall fun part hmem type => ?_)
    exact ih part hmem context type _ (forall_nodes_of_part hdistinct hmem)
      (hlists.part hbranch hmem)
  | or alternatives span ih =>
    have hinner : ∀ choice ∈ alternatives, ∀ node ∈ choice.nodes, node.StepsDistinct :=
      stepsDistinct_or_iff.mp hdistinct
    simp only [collect]
    refine Attempt.RejectsOnly.bind (faultless_compileOrWith (faultless_compileWith
      fun certificate hcertify choice hmem alternative =>
        ih choice hmem ⟨certificate, alternative⟩ expected path (hinner choice hmem)
          (lists_of_certify hcertify hmem))) fun pool compiled later hcompile => ?_
    obtain ⟨certificate, findings, middle, hcompiles⟩ :=
      compileWith_yields_iff.mp (compileOrWith_yields_iff.mp hcompile).2
    obtain ⟨sites, hsites⟩ := hcompiles.exists_nestedSites hinner hlists
    rw [hsites]
    exact (Attempt.RejectsOnly.liftM (.ok sites)).bind fun _ _ _ _ => .pure _

theorem faultless_compile {pattern : Pattern} {scrutinee : Ty}
    (hdistinct : ∀ node ∈ pattern.nodes, node.StepsDistinct) :
    (pattern.compile options scrutinee).Faultless := by
  have halternatives : ∀ certificate, certify pattern.alternatives [] pattern.span = .ok certificate →
      ∀ choice ∈ pattern.alternatives, ∀ alternative,
        (choice.collect options ⟨certificate, alternative⟩ scrutinee []).Faultless :=
    fun certificate hcertify choice hmem alternative => choice.faultless_collect _ scrutinee []
      (forall_nodes_of_alternative hdistinct hmem) (lists_of_certify hcertify hmem)
  cases pattern with
  | or alternatives span => exact faultless_compileOrWith (faultless_compileWith halternatives)
  | wildcard | bind | literal | variant | tuple | record => exact faultless_compileWith halternatives

/-- A pattern in which no two parts of a node share a step is compiled or rejected for
    its shape or its types: no phase finds what an earlier one settled missing or
    different, whatever the pool and the ascriptions. -/
theorem compile_never_faults {pattern : Pattern} {scrutinee : Ty} {pool later : Pool}
    {rejection : Rejection} (hdistinct : ∀ node ∈ pattern.nodes, node.StepsDistinct)
    (hrejected : (pattern.compile options scrutinee).runOn pool = (.error rejection, later))
    (fault : Fault) : rejection.cause ≠ .fault fault :=
  faultless_compile hdistinct pool rejection (congrArg Prod.fst hrejected) fault

/-- Two records over one field: a nested or-pattern settles its type by an
    ascription, and the other alternative ascribes a type that its place does not
    admit. -/
theorem compile_never_faults_of_records :
    let pool := (Pool.initial.record [(⟨1⟩, .i8)]).2
    let inner := or [bind ⟨2⟩ none Span.none, bind ⟨2⟩ (some .i16) Span.none] Span.none
    let alternatives := [record [⟨⟨1⟩, inner, Span.none⟩] false Span.none,
      record [⟨⟨1⟩, bind ⟨2⟩ (some .str) Span.none, Span.none⟩] true Span.none]
    ∃ rejection later, ((or alternatives Span.none).compile {} ⟨11⟩).runOn pool =
        (.error rejection, later) ∧ ∀ fault, rejection.cause ≠ .fault fault := by
  intro pool inner alternatives
  have hdistinct : ∀ node ∈ (or alternatives Span.none).nodes, node.StepsDistinct := by
    simp [alternatives, inner, nodes, nodesList, nodesFields, StepsDistinct]
  obtain ⟨rejection, later, hrejected⟩ : ∃ rejection later,
      ((or alternatives Span.none).compile {} ⟨11⟩).runOn pool = (.error rejection, later) := ⟨_, _, rfl⟩
  exact ⟨rejection, later, hrejected, compile_never_faults hdistinct hrejected⟩

end Pattern

end OrPattern
