import XnnpackGemm.Enabled

/-!
# When a GEMM is partitioned without its static operands

Every class checks that the weight it partitions is a static parameter, in the generic
`_get_weight_deps` or in an override that falls back to it. Two FP32 settings bypass the
check. With `force_non_static_weights_for_f32_linear` on, the bias resolver and the
overrides of LinearConfig, AddmmConfig and MMConfig return no deps at FP32; ConvolutionConfig
has no override and keeps the check. When only FP32 is enabled, `_overwrite_precision`
turns a quantized precision into FP32, and only LinearConfig's override reads that: the
generic check then asks the weight's dequantize node to be a static parameter, so the
other classes reject the node. The bias is checked only when the node has more than two
distinct input nodes, so a bias that repeats another input is neither checked nor
partitioned.
-/

namespace XnnpackGemm

section Roles

variable (O : Oracles) (cfg : GEMMConfig) (g : Graph) (n : Node)

@[simp] theorem getActDeps_fp32 : getActDeps O cfg g n .fp32 = some (.valid []) := rfl

@[simp] theorem getOutputDeps_fp32_isValid : (getOutputDeps O cfg g n .fp32).isValid = true := by
  simp only [getOutputDeps]
  split
  · split <;> rfl
  · rfl

/-- At FP32 the act and the output resolver accept, so the answer is the bias and the
weight's validity, with their deps and the fused activation. -/
theorem resolveDeps_fp32 {b : Bool} (hp : overwritePrecision O cfg g n = some (b, .fp32)) :
    resolveDeps O cfg g n =
      (getBiasDeps O cfg g n .fp32).bind fun bias => (getWeightDeps O cfg g n .fp32).map
        fun weight => (bias.isValid && weight.isValid,
          bias.nodes ++ weight.nodes ++ (getOutputDeps O cfg g n .fp32).nodes) := by
  rw [resolveDeps_eq, hp, Option.some_bind]
  simp [combineRoles, Option.map_eq_bind]

/-- A valid answer is made of four valid role answers, their deps chained. -/
theorem resolveDeps_roles_of_valid {b : Bool} {p : ConfigPrecisionType} {D : List Node}
    (hp : overwritePrecision O cfg g n = some (b, p))
    (hv : resolveDeps O cfg g n = some (true, D)) :
    ∃ bias weight act, getBiasDeps O cfg g n p = some bias ∧
      getWeightDeps O cfg g n p = some weight ∧ getActDeps O cfg g n p = some act ∧
      bias.isValid = true ∧ weight.isValid = true ∧ act.isValid = true ∧
      (getOutputDeps O cfg g n p).isValid = true ∧
      D = bias.nodes ++ weight.nodes ++ act.nodes ++ (getOutputDeps O cfg g n p).nodes := by
  rw [resolveDeps_eq, hp, Option.some_bind] at hv
  obtain ⟨bias, hb, hv⟩ := Option.bind_eq_some.1 hv
  obtain ⟨weight, hw, hv⟩ := Option.bind_eq_some.1 hv
  obtain ⟨act, ha, hv⟩ := Option.map_eq_some'.1 hv
  simp only [combineRoles, Prod.mk.injEq, Bool.and_eq_true] at hv
  exact ⟨bias, weight, act, hb, hw, ha, hv.1.1.1.1, hv.1.1.1.2, hv.1.1.2, hv.1.2, hv.2.symm⟩

/-- A valid answer of the generic weight check holds a static parameter: the weight input,
or the input of the weight's dequantize node, which it holds too and which is not
per-tensor under dynamic quantization. -/
theorem gemmWeightDeps_valid {p : ConfigPrecisionType} {weight : Deps}
    (h : gemmWeightDeps O cfg g n p = some weight) (hv : weight.isValid = true) :
    ∃ w, O.isParamNode w = true ∧ w ∈ weight.nodes ∧
      (p = .fp32 ∧ inputNode g n cfg.weightIdx = some w ∨
        ∃ dq, inputNode g n cfg.weightIdx = some dq ∧ O.isDequant dq = true ∧
          dq ∈ weight.nodes ∧ inputNode g dq 0 = some w ∧
          (p = .dynamicQuant → O.isPerTensor dq = false)) := by
  unfold gemmWeightDeps at h
  dsimp only [Option.bind_eq_bind, Option.pure_def, Option.some_bind] at h
  by_cases hp : p = .fp32
  · rw [if_pos hp, Option.bind_eq_some] at h
    obtain ⟨w, hw, h⟩ := h
    by_cases hpw : O.isParamNode w = true
    · rw [if_neg (by simp [hpw])] at h
      obtain rfl := Option.some.inj h
      exact ⟨w, hpw, List.mem_singleton_self w, Or.inl ⟨hp, hw⟩⟩
    · rw [if_pos (by simpa using hpw)] at h; cases Option.some.inj h; cases hv
  rw [if_neg hp, Option.bind_eq_some] at h
  obtain ⟨dq, hq, h⟩ := h
  by_cases hd : O.isDequant dq = true
  on_goal 2 => rw [if_pos (by simpa using hd)] at h; cases Option.some.inj h; cases hv
  rw [if_neg (by simp [hd]), Option.bind_eq_some] at h
  obtain ⟨w, hw, h⟩ := h
  by_cases hpw : O.isParamNode w = true
  on_goal 2 => rw [if_pos (by simpa using hpw)] at h; cases Option.some.inj h; cases hv
  rw [if_neg (by simp [hpw])] at h
  by_cases ht : (O.isPerTensor dq && p == .dynamicQuant) = true
  · rw [if_pos ht] at h; cases Option.some.inj h; cases hv
  rw [if_neg ht] at h
  have hpt : p = .dynamicQuant → O.isPerTensor dq = false := fun hd => by simpa [hd] using ht
  -- every valid answer left starts with the dequantize node and the weight
  have hmem : dq ∈ weight.nodes ∧ w ∈ weight.nodes := by
    by_cases hc : (O.isPerChannel dq || O.isPerChannelGroup dq) = true
    · rw [if_pos hc] at h
      by_cases hl : (allInputNodes (g.node dq).args).length < 2
      · rw [if_pos hl] at h; cases Option.some.inj h; cases hv
      · rw [if_neg hl] at h; cases Option.some.inj h; simp
    · rw [if_neg hc] at h; cases Option.some.inj h; simp
  exact ⟨w, hpw, hmem.2, Or.inr ⟨dq, hq, hd, hmem.1, hw, hpt⟩⟩

/-- Outside the two FP32 escape hatches every class runs the generic weight check. -/
theorem getWeightDeps_eq_gemm {b : Bool} {p : ConfigPrecisionType}
    (hp : overwritePrecision O cfg g n = some (b, p))
    (hf : cfg.forcesNonStatic p = false ∨ cfg.kind = .convolution)
    (hov : b = false ∨ cfg.kind ≠ .linear) :
    getWeightDeps O cfg g n p = gemmWeightDeps O cfg g n p := by
  unfold getWeightDeps
  split
  · rename_i hk
    have hf : cfg.forcesNonStatic p = false := hf.resolve_right (by rw [hk]; decide)
    have hb : b = false := hov.resolve_right (by rw [hk]; decide)
    subst hb
    simp [linearWeightDeps, unlessForced, hf, hp]
  · rfl
  all_goals
    rename_i hk
    have hf : cfg.forcesNonStatic p = false := hf.resolve_right (by rw [hk]; decide)
    simp [mmWeightDeps, addmmWeightDeps, unlessForced, hf]

/-- Unless forced, a valid bias answer for a node with three distinct input nodes holds
the bias, a static parameter. -/
theorem getBiasDeps_valid {p : ConfigPrecisionType} (hf : cfg.forcesNonStatic p = false)
    {i : Nat} {bias : Node} (hi : cfg.biasIdx = some i)
    (hb : getInputNode g n i = some (.node bias))
    (h3 : 2 < (allInputNodes (g.node n).args).length) {d : Deps}
    (h : getBiasDeps O cfg g n p = some d) (hv : d.isValid = true) :
    O.isParamNode bias = true ∧ bias ∈ d.nodes := by
  unfold getBiasDeps unlessForced at h
  rw [hf, hi] at h
  cases hpb : O.isParamNode bias <;> simp [h3, hb, hpb, Arg.truthy] at h <;> subst h
  · simp at hv
  · simp

end Roles

section Forced

variable (O : Oracles) (cfg : GEMMConfig) (g : Graph) (n : Node)
  (hf : cfg.forceNonStaticWeightsForF32Linear = true)
include hf

theorem unlessForced_fp32 (x : Option Deps) : unlessForced cfg .fp32 x = some (.valid []) := by
  simp [unlessForced, GEMMConfig.forcesNonStatic, hf]

theorem getWeightDeps_forced (hk : cfg.kind ≠ .convolution) :
    getWeightDeps O cfg g n .fp32 = some (.valid []) := by
  unfold getWeightDeps linearWeightDeps addmmWeightDeps mmWeightDeps
  split
  · exact unlessForced_fp32 cfg hf _
  · exact absurd ‹_› hk
  all_goals exact unlessForced_fp32 cfg hf _

end Forced

/-- A program with a statically quantized linear and a statically quantized convolution
over the same operands: `x`, `qx`, `dqx`, `w`, `dqw`, `b`, `linear(dqx, dqw, b)`,
`convolution(dqx, dqw, b, ...)`, a quantize after each, `output`. -/
def quantizedGemmsGraph : Graph := Graph.ofList 7
  [⟨.placeholder, "x", [], {1}⟩,
   ⟨.callFunction, "quantize_per_tensor.default", [.node 0], {2}⟩,
   ⟨.callFunction, "dequantize_per_tensor.default", [.node 1], {6, 7}⟩,
   ⟨.placeholder, "w", [], {4}⟩,
   ⟨.callFunction, "dequantize_per_tensor.default", [.node 3], {6, 7}⟩,
   ⟨.placeholder, "b", [], {6, 7}⟩,
   ⟨.callFunction, "linear.default", [.node 2, .node 4, .node 5], {8}⟩,
   ⟨.callFunction, "convolution.default", [.node 2, .node 4, .node 5, .ints [1, 1], .ints [0, 0],
     .ints [1, 1], .bool false, .ints [0, 0], .int 1], {9}⟩,
   ⟨.callFunction, "quantize_per_tensor.default", [.node 6], {10}⟩,
   ⟨.callFunction, "quantize_per_tensor.default", [.node 7], {10}⟩,
   ⟨.output, "output", [.node 8, .node 9], ∅⟩]

def quantizedGemmsOracles : Oracles := .listing [1, 8, 9] [2, 4] [4] [3, 5] []

/-- Where `get_deps` resolves directly, a valid answer holds a static weight (the weight
input, or the parameter behind the weight's dequantize node, with that node) unless the
force flag is on at FP32 for LinearConfig, AddmmConfig or MMConfig, or LinearConfig had
its precision overwritten to FP32. -/
theorem getDeps_valid_has_static_weight (O : Oracles) (cfg : GEMMConfig) (n : Node) (s : State)
    (hP : srcPartitionFor O cfg n s.graph = none) {b : Bool} {p : ConfigPrecisionType}
    (hp : overwritePrecision O cfg s.graph n = some (b, p))
    (hf : cfg.forcesNonStatic p = false ∨ cfg.kind = .convolution)
    (hov : b = false ∨ cfg.kind ≠ .linear) {D : List Node}
    (hv : (getDeps O cfg n s).value = some (true, D)) :
    ∃ w, O.isParamNode w = true ∧ w ∈ D ∧ (inputNode s.graph n cfg.weightIdx = some w ∨
      ∃ dq, inputNode s.graph n cfg.weightIdx = some dq ∧ O.isDequant dq = true ∧ dq ∈ D ∧
        inputNode s.graph dq 0 = some w) := by
  rw [getDeps_value, depsOf, hP] at hv
  obtain ⟨_, weight, _, -, hw, -, -, hwv, -, -, hD⟩ :=
    resolveDeps_roles_of_valid O cfg s.graph n hp hv
  have hsub : ∀ m ∈ weight.nodes, m ∈ D := fun m hm => by simp [hD, hm]
  rw [getWeightDeps_eq_gemm O cfg s.graph n hp hf hov] at hw
  obtain ⟨w, hpw, hmem, hin⟩ := gemmWeightDeps_valid O cfg s.graph n hw hwv
  exact ⟨w, hpw, hsub w hmem,
    hin.imp And.right fun ⟨dq, h₁, h₂, h₃, h₄, _⟩ =>
      ⟨dq, h₁, h₂, hsub dq h₃, h₄⟩⟩

/-- With every precision enabled, the statically quantized linear holds its weight `w`
and the dequantize node `dqw`. -/
theorem getDeps_valid_has_static_weight_quantizedGemms :
    ∃ w, quantizedGemmsOracles.isParamNode w = true ∧ w ∈ [5, 4, 3, 2, 8] ∧
      (inputNode quantizedGemmsGraph 6 1 = some w ∨
        ∃ dq, inputNode quantizedGemmsGraph 6 1 = some dq ∧
          quantizedGemmsOracles.isDequant dq = true ∧ dq ∈ [5, 4, 3, 2, 8] ∧
        inputNode quantizedGemmsGraph dq 0 = some w) :=
  getDeps_valid_has_static_weight quantizedGemmsOracles
    (linearConfig ⟨[.fp32, .staticQuant, .dynamicQuant], false, fun _ => true⟩) 6
    ⟨quantizedGemmsGraph, ∅⟩ rfl (b := false) (p := .staticQuant) (by decide) (Or.inl rfl)
    (Or.inl rfl) (by decide)

/-- Where `get_deps` resolves directly and the force flag is off or the precision is not
FP32, a valid answer holds the bias, a static parameter, whenever the node has three
distinct input nodes. -/
theorem getDeps_valid_bias_static (O : Oracles) (cfg : GEMMConfig) (n : Node) (s : State)
    (hP : srcPartitionFor O cfg n s.graph = none) {b : Bool} {p : ConfigPrecisionType}
    (hp : overwritePrecision O cfg s.graph n = some (b, p)) (hf : cfg.forcesNonStatic p = false)
    {i : Nat} {bias : Node} (hi : cfg.biasIdx = some i)
    (hb : getInputNode s.graph n i = some (.node bias))
    (h3 : 2 < (allInputNodes (s.graph.node n).args).length) {D : List Node}
    (hv : (getDeps O cfg n s).value = some (true, D)) :
    O.isParamNode bias = true ∧ bias ∈ D := by
  rw [getDeps_value, depsOf, hP] at hv
  obtain ⟨d, _, _, hd, -, -, hdv, -, -, -, rfl⟩ :=
    resolveDeps_roles_of_valid O cfg s.graph n hp hv
  obtain ⟨hpb, hmem⟩ := getBiasDeps_valid O cfg s.graph n hf hi hb h3 hd hdv
  exact ⟨hpb, by simp [hmem]⟩

theorem getDeps_valid_bias_static_quantizedGemms :
    quantizedGemmsOracles.isParamNode 5 = true ∧ (5 : Node) ∈ [5, 4, 3, 2, 8] :=
  getDeps_valid_bias_static quantizedGemmsOracles
    (linearConfig ⟨[.fp32, .staticQuant, .dynamicQuant], false, fun _ => true⟩) 6
    ⟨quantizedGemmsGraph, ∅⟩ rfl (b := false) (p := .staticQuant) (by decide) (by decide) rfl
    (by decide) (by decide) (by decide)

/-- `addmm(x, x, w)`: the bias repeats the activation, so `all_input_nodes` has two
entries and the bias is never checked. -/
def sharedBiasGraph : Graph := Graph.ofList 8
  [⟨.placeholder, "x", [], {2}⟩,
   ⟨.placeholder, "w", [], {2}⟩,
   ⟨.callFunction, "addmm.default", [.node 0, .node 0, .node 1], {3}⟩,
   ⟨.output, "output", [.node 2], ∅⟩]

/-- The hypothesis of three distinct inputs cannot be dropped: AddmmConfig accepts
`addmm(x, x, w)` with the weight a parameter and the bias `x` not one. -/
theorem getDeps_accepts_repeated_bias :
    let O := Oracles.listing [] [] [] [1] []
    (allInputNodes (sharedBiasGraph.node 2).args).length = 2 ∧ O.isParamNode 0 = false ∧
    (getDeps O (addmmConfig ⟨[.fp32], false, fun _ => true⟩) 2 ⟨sharedBiasGraph, ∅⟩).value =
      some (true, [1]) := by
  decide

/-- With `force_non_static_weights_for_f32_linear` on, where `get_deps` resolves directly
at FP32, LinearConfig, AddmmConfig and MMConfig answer valid with the fused activation
alone, while ConvolutionConfig still runs the generic weight check; no class keeps the
bias. -/
theorem getDeps_forced_fp32 (O : Oracles) (cfg : GEMMConfig) (n : Node) (s : State)
    (hf : cfg.forceNonStaticWeightsForF32Linear = true)
    (hP : srcPartitionFor O cfg n s.graph = none) {b : Bool}
    (hp : overwritePrecision O cfg s.graph n = some (b, .fp32)) :
    (getDeps O cfg n s).value =
      if cfg.kind = .convolution then
        (gemmWeightDeps O cfg s.graph n .fp32).map fun weight =>
          (weight.isValid, weight.nodes ++ (getOutputDeps O cfg s.graph n .fp32).nodes)
      else some (true, (getOutputDeps O cfg s.graph n .fp32).nodes) := by
  rw [getDeps_value, depsOf, hP]
  show resolveDeps O cfg s.graph n = _
  rw [resolveDeps_fp32 O cfg s.graph n hp]
  unfold getBiasDeps
  rw [unlessForced_fp32 cfg hf]
  split
  · rename_i hk
    unfold getWeightDeps
    rw [hk]
    simp [Option.map_eq_bind]
  · rename_i hk
    simp [getWeightDeps_forced O cfg s.graph n hf hk]

/-- With the flag on and only FP32 enabled, the linear is taken with no deps, and the
convolution is rejected: its weight input is a dequantize node. -/
theorem getDeps_forced_fp32_quantizedGemms :
    (getDeps quantizedGemmsOracles (linearConfig ⟨[.fp32], true, fun _ => true⟩) 6
        ⟨quantizedGemmsGraph, ∅⟩).value = some (true, []) ∧
    (getDeps quantizedGemmsOracles (convolutionConfig ⟨[.fp32], true, fun _ => true⟩) 7
        ⟨quantizedGemmsGraph, ∅⟩).value = some (false, []) := by
  constructor
  · rw [getDeps_forced_fp32 quantizedGemmsOracles (linearConfig ⟨[.fp32], true, fun _ => true⟩)
      6 ⟨quantizedGemmsGraph, ∅⟩ rfl rfl (b := true) (by decide)]
    decide
  · rw [getDeps_forced_fp32 quantizedGemmsOracles
      (convolutionConfig ⟨[.fp32], true, fun _ => true⟩) 7 ⟨quantizedGemmsGraph, ∅⟩ rfl rfl
      (b := true) (by decide)]
    decide

end XnnpackGemm
