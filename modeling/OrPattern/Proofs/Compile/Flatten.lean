import OrPattern.Proofs.Compile.Principal
import OrPattern.Proofs.Pattern.Flatten

namespace OrPattern

open Attempt

variable {options : Options} {base pool start later last common : Pool} {expected : Ty} {path : Path}
  {alternatives others : List Pattern} {span otherSpan : Span}
  {certificate otherCertificate : Certificate} {findings otherFindings : Findings}
  {middle otherMiddle : Pool} {compiled recompiled : Compiled}

/-- Entries that speak for the same places are the same. -/
theorem EnvironmentEntry.eq_of_summary {entry other : EnvironmentEntry}
    {places : Option Ty → Ty → Prop} (hpool : pool.WellFormed)
    (hname : entry.name = other.name) (hentry : Summary pool places entry.ascription entry.type)
    (hother : Summary pool places other.ascription other.type) : entry = other := by
  obtain ⟨hascription, htype⟩ := hentry.unique hpool hother
  obtain ⟨name, type, origin⟩ := entry
  obtain ⟨otherName, otherType, otherOrigin⟩ := other
  obtain rfl : name = otherName := hname
  cases origin with
  | inferred =>
    cases otherOrigin with
    | inferred => exact congrArg (EnvironmentEntry.mk name · .inferred) htype
    | ascribed => cases hascription
  | ascribed =>
    cases otherOrigin with
    | inferred => cases hascription
    | ascribed => exact congrArg (EnvironmentEntry.mk name · .ascribed) htype

/-- An environment is known by its names and by the entry of each name. -/
theorem Environment.eq_of_names {environment other : Environment}
    (hnames : environment.names = other.names)
    (hentries : ∀ entry ∈ environment.entries, ∀ partner ∈ other.entries,
      entry.name = partner.name → entry = partner) : environment = other := by
  obtain ⟨entries⟩ := environment
  obtain ⟨partners⟩ := other
  refine congrArg Environment.mk (List.ext_getElem ?_ fun index hindex hother => ?_)
  · simpa [names] using congrArg List.length hnames
  · refine hentries _ (List.getElem_mem hindex) _ (List.getElem_mem hother) ?_
    have hname := congrArg (·[index]?) hnames
    simpa [names, hindex, hother] using hname

/-- Alternatives that list the same names and have the same places get the same
    environment, though other types were entered before the one or the other. -/
theorem CompilesTo.environment_eq (hbase : base.WellFormed) (hknown : base.contains expected)
    (hpool : pool.WellFormed) (hkept : base.KeptBy pool) (hstart : start.WellFormed)
    (hkept' : base.KeptBy start) (hcommon : common.WellFormed) (hlater : later.KeptBy common)
    (hlast : last.KeptBy common) (hnonempty : alternatives ≠ []) (hothers : others ≠ [])
    (hcompiles : CompilesTo options alternatives expected path span pool certificate findings middle
      compiled later)
    (hrecompiles : CompilesTo options others expected path otherSpan start otherCertificate
      otherFindings otherMiddle recompiled last)
    (hnames : Pattern.bindingsFirst alternatives = Pattern.bindingsFirst others)
    (hplaces : ∀ name, Pattern.BindsAt base expected (.or alternatives span) name =
      Pattern.BindsAt base expected (.or others otherSpan) name) :
    compiled.environment = recompiled.environment := by
  refine Environment.eq_of_names ?_ fun entry hentry partner hpartner hname => ?_
  · rw [hcompiles.environment_names, hrecompiles.environment_names, hnames]
  · obtain ⟨hsummary, -⟩ := hcompiles.summary hbase hpool hkept hknown hnonempty entry hentry
    obtain ⟨hpartnerSummary, -⟩ :=
      hrecompiles.summary hbase hstart hkept' hknown hothers partner hpartner
    rw [hplaces, hname] at hsummary
    exact EnvironmentEntry.eq_of_summary hcommon hname (hsummary.mono hlater)
      (hpartnerSummary.mono hlast)

namespace Pattern

variable {before inner after : List Pattern}

/-- An or-pattern that compiles does so as its alternatives, in a pool that only
    grows. -/
theorem exists_compilesTo_of_or (hpool : pool.WellFormed) (hknown : pool.contains expected)
    (hcompile : ((or alternatives span).compile options expected).Yields pool compiled later) :
    later.WellFormed ∧ pool.KeptBy later ∧ alternatives ≠ [] ∧ ∃ certificate findings middle,
      CompilesTo options alternatives expected [] span pool certificate findings middle compiled
        later := by
  obtain ⟨hplural, certificate, findings, middle, hcompiles⟩ := compile_yields_iff.mp hcompile
  have hnonempty := alternatives_ne_nil hplural
  obtain ⟨⟨hgrows, -⟩, hlast, -⟩ := hcompiles.grows hpool hknown hnonempty
  obtain ⟨hlater, hkept⟩ := (hgrows.trans hlast).keeps hpool
  exact ⟨hlater, hkept, hnonempty, certificate, findings, middle, hcompiles⟩

theorem bare_flatten_iff (span innerSpan flatSpan : Span) :
    (or (before ++ or inner innerSpan :: after) span).Bare ↔
      (or (before ++ inner ++ after) flatSpan).Bare := by
  simp only [bare_or_iff, List.forall_mem_append, List.forall_mem_cons, and_assoc]

end Pattern

/-- Every pool can be made to hold a given number of types. -/
theorem Pool.exists_grows_contains (pool : Pool) (type : Ty) :
    ∃ later, Grows pool later ∧ later.contains type := by
  suffices hsize : ∀ count, ∃ later, Grows pool later ∧ pool.size + count ≤ later.size by
    obtain ⟨later, hgrows, hle⟩ := hsize (type.index + 1)
    exact ⟨later, hgrows, contains_iff.mpr (by omega)⟩
  intro count
  induction count with
  | zero => exact ⟨pool, .refl pool, Nat.le_refl _⟩
  | succ count ih =>
    obtain ⟨later, hgrows, hle⟩ := ih
    refine ⟨(later.declareClass ⟨0⟩ none).2, hgrows.declareClass ⟨0⟩ none nofun, ?_⟩
    rw [declareClass, size_push]
    omega

end OrPattern
