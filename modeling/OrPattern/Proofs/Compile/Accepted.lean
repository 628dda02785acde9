import OrPattern.Proofs.Compile.Complete

namespace OrPattern

namespace Pattern

variable {options : Options} {pool : Pool} {expected : Ty} {pattern : Pattern}

/-- A pattern that is well formed over a type compiles for it, also once other types
    have been entered into the pool. -/
theorem exists_compile_of_kept {base : Pool} (hbase : base.WellFormed) (hpool : pool.WellFormed)
    (hkept : base.KeptBy pool) (hknown : base.contains expected)
    (hdistinct : ∀ node ∈ pattern.nodes, node.StepsDistinct)
    (hwell : pattern.WellFormed base expected) :
    ∃ compiled later, (pattern.compile options expected).Yields pool compiled later := by
  have hlies := hwell.toLiesOver
  have hplural := hlies.plural pattern pattern.self_mem_nodes
  have hinner : ∀ choice ∈ pattern.alternatives, ∀ node ∈ choice.nodes, node.StepsDistinct :=
    fun _ hmem => forall_nodes_of_alternative hdistinct hmem
  obtain ⟨certificate, findings, middle, compiled, later, hcompiles⟩ : ∃ certificate findings middle
      compiled later, CompilesTo options pattern.alternatives expected [] pattern.span pool certificate
        findings middle compiled later := by
    refine exists_compilesTo_of_alternatives hbase hpool hkept hknown (alternatives_ne_nil hplural)
      hlies.agree_alternatives hinner (fun choice hmem => hlies.alternative hmem)
      (fun name => (hwell.reconciles name).of_places (bindsAt_or_alternatives _)) ?_
    intro choice hmem context start hstart hkept' hlists
    exact choice.exists_collect context expected [] start hbase hstart hkept' hknown
      (hinner choice hmem) (hlies.alternative hmem) hlists
  exact ⟨compiled, later, compile_yields_iff.mpr ⟨hplural, certificate, findings, middle, hcompiles⟩⟩

end Pattern

end OrPattern
