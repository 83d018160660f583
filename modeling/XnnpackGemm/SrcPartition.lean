import XnnpackGemm.ForceFlag

/-!
# The source-partition path against the linear it stands for

`AddmmConfig.get_deps_from_src_partition` walks each argument of the addmm node back to
the boundary of the `linear` source partition containing it, validates the walked
arguments, and runs the generic `get_deps` on the node as if it were that linear. Two
decomposed linears show where the path departs from the linear it stands for: the bias
check never runs for `bias_idx = 0`, and the generic weight resolver lacks LinearConfig's
FP32 override.
-/

namespace XnnpackGemm

/-- A valid answer of the source-partition path passed the validation: a rejected
partition answers `(False, [])`. -/
theorem srcPartitionDeps_adapted (cfg : GEMMConfig) {O : Oracles} {n : Node} {g : Graph}
    {P : SourcePartition} {D : List Node} (h : srcPartitionDeps O cfg n P g = some (true, D)) :
    ∃ fake out, fakeArgs P g (g.node n).args = some fake ∧
      checkSrcPartition cfg P fake = some (some out) := by
  obtain ⟨fake, hf, h⟩ := Option.bind_eq_some.mp h
  obtain ⟨c, hc, h⟩ := Option.bind_eq_some.mp h
  cases c with
  | none => cases h
  | some out => exact ⟨fake, out, hf, hc⟩

/-- An FP32 linear decomposed into `permute` and `addmm`: `x`, `w`, `b`, `p = permute(w)`,
`addmm(b, x, p)`, `output`; its `linear` source partition is `linearPartition`. -/
def fp32LinearGraph : Graph := Graph.ofList 5
  [⟨.placeholder, "x", [], {4}⟩,
   ⟨.placeholder, "w", [], {3}⟩,
   ⟨.placeholder, "b", [], {4}⟩,
   ⟨.callFunction, "permute_copy.default", [.node 1, .ints [1, 0]], {4}⟩,
   ⟨.callFunction, "addmm.default", [.node 2, .node 0, .node 3], {5}⟩,
   ⟨.output, "output", [.node 4], ∅⟩]

def fp32LinearOracles : Oracles := .listing [] [] [] [1, 2] [linearPartition]

/-- The bias walk of the FP32 linear ends at the placeholder `b`, outside the partition's
nodes, and the adaptation still answers valid: with `bias_idx = 0` the bias condition of
the validation is false before it looks at the bias. -/
theorem getDeps_accepts_bias_outside_partition :
    fakeArgs linearPartition fp32LinearGraph (fp32LinearGraph.node 4).args = some [2, 0, 1] ∧
    (2 : Node) ∉ linearPartition.nodes ∧
    (getDeps fp32LinearOracles (addmmConfig ⟨[.fp32], false, fun _ => true⟩) 4
      ⟨fp32LinearGraph, ∅⟩).value = some (true, [2, 1, 3, 4]) := by
  decide

/-- With only FP32 enabled, the statically quantized linear is partitioned as FP32. Run as
the linear it stands for, LinearConfig's weight resolver leaves the overridden weight
out and the linear is valid; the addmm adaptation runs the generic weight resolver, which
rejects the dequantized weight as not a static parameter. -/
theorem getDeps_addmm_differs_from_linear :
    let pc : XNNPartitionerConfig := ⟨[.fp32], false, fun _ => true⟩
    overwritePrecision staticQuantOracles (linearConfig pc)
      (fakedGraph 7 staticQuantLinearGraph [2, 4, 6] 7) 7 = some (true, .fp32) ∧
    (getDeps staticQuantOracles (linearConfig pc) 7
      ⟨fakedGraph 7 staticQuantLinearGraph [2, 4, 6] 7, ∅⟩).value = some (true, [6]) ∧
    (getDeps staticQuantOracles (addmmConfig pc) 7 ⟨staticQuantLinearGraph, ∅⟩).value =
      some (false, [6, 5, 7]) := by
  decide

end XnnpackGemm
