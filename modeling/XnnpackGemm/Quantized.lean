import XnnpackGemm.Convolution

/-!
# What a valid quantized answer partitions

Under static quantization a valid `get_deps` answer holds the dequantize node of the
activation and the quantize node of the output, after a fused activation it holds too. Under
dynamic quantization it holds the activation's whole quantization chain, down to the
`choose_qparams` node whose outputs the quantize node reads, and the weight's dequantize
node is never per-tensor: XNNPACK takes the pattern around the GEMM along with it.
-/

namespace XnnpackGemm

section Roles

variable (O : Oracles) (cfg : GEMMConfig) (g : Graph) (n : Node)

/-- A valid activation answer under static quantization is the activation's dequantize
node. -/
theorem getActDeps_valid_staticQuant {act : Deps}
    (h : getActDeps O cfg g n .staticQuant = some act) (hv : act.isValid = true) :
    ∃ dqa, inputNode g n cfg.actIdx = some dqa ∧ O.isDequant dqa = true ∧
      act.nodes = [dqa] := by
  unfold getActDeps at h
  dsimp only [Option.bind_eq_bind, Option.pure_def, Option.some_bind] at h
  rw [if_neg (by decide), Option.bind_eq_some] at h
  obtain ⟨dqa, hdqa, h⟩ := h
  by_cases hd : O.isDequant dqa = true
  · rw [if_neg (by simp [hd]), if_pos rfl] at h
    cases Option.some.inj h
    exact ⟨dqa, hdqa, hd, rfl⟩
  · rw [if_pos (by simpa using hd)] at h; cases Option.some.inj h; cases hv

/-- A valid output answer under static quantization holds a quantize node: the node's sole
user, or the sole user of a fused activation it holds too (the activation itself when it
has not one user). -/
theorem getOutputDeps_valid_staticQuant
    (hv : (getOutputDeps O cfg g n .staticQuant).isValid = true) :
    ∃ q, O.isQuant q = true ∧ q ∈ (getOutputDeps O cfg g n .staticQuant).nodes ∧
      (soleUser (g.node n).users = some q ∨ ∃ a, soleUser (g.node n).users = some a ∧
        isFusedAct O cfg g a = true ∧ a ∈ (getOutputDeps O cfg g n .staticQuant).nodes ∧
        (soleUser (g.node a).users).getD a = q) := by
  unfold getOutputDeps at hv ⊢
  cases hu : soleUser (g.node n).users with
  | none => simp [hu] at hv
  | some u =>
    simp only [hu] at hv ⊢
    by_cases hf : isFusedAct O cfg g u = true
    · simp only [hf, ↓reduceIte] at hv ⊢
      by_cases hq : O.isQuant ((soleUser (g.node u).users).getD u) = true
      · simp only [hq, Bool.not_true, Bool.false_eq_true, ↓reduceIte, Deps.nodes_valid]
        exact ⟨_, hq, by simp, .inr ⟨u, rfl, hf, by simp, rfl⟩⟩
      · simp [hq] at hv
    · simp only [hf, Bool.false_eq_true, ↓reduceIte] at hv ⊢
      by_cases hq : O.isQuant u = true
      · simp only [hq, Bool.not_true, Bool.false_eq_true, ↓reduceIte, Deps.nodes_valid]
        exact ⟨u, hq, by simp, .inl rfl⟩
      · simp [hq] at hv
/-- A valid activation answer under dynamic quantization is the whole chain: the
dequantize node, the quantize node before it, the two getitems it reads its scale and zero
point from, and the `choose_qparams` node they read. -/
theorem getActDeps_valid_dynamicQuant {act : Deps}
    (h : getActDeps O cfg g n .dynamicQuant = some act) (hv : act.isValid = true) :
    ∃ dqa qa g1 g2 cq, inputNode g n cfg.actIdx = some dqa ∧ O.isDequant dqa = true ∧
      inputNode g dqa 0 = some qa ∧ O.isQuant qa = true ∧
      (if O.isAffineQdq qa then O.extractQdqAffineOpArgsForDecomposedOps qa
        else (g.node qa).args).get? 1 = some (.node g1) ∧
      (if O.isAffineQdq qa then O.extractQdqAffineOpArgsForDecomposedOps qa
        else (g.node qa).args).get? 2 = some (.node g2) ∧
      O.isGetitem g1 = true ∧ O.isGetitem g2 = true ∧ inputNode g g1 0 = some cq ∧
      O.isQparam cq = true ∧ act.nodes = [dqa, qa, g1, g2, cq] := by
  unfold getActDeps at h
  dsimp only [Option.bind_eq_bind, Option.pure_def, Option.some_bind] at h
  rw [if_neg (by decide), Option.bind_eq_some] at h
  obtain ⟨dqa, hdqa, h⟩ := h
  by_cases hd : O.isDequant dqa = true
  on_goal 2 => rw [if_pos (by simpa using hd)] at h; cases Option.some.inj h; cases hv
  rw [if_neg (by simp [hd]), if_neg (by decide), Option.bind_eq_some] at h
  obtain ⟨qa, hqa, h⟩ := h
  by_cases hq : O.isQuant qa = true
  on_goal 2 => rw [if_pos (by simpa using hq)] at h; cases Option.some.inj h; cases hv
  rw [if_neg (by simp [hq]), Option.bind_eq_some] at h
  obtain ⟨a1, ha1, h⟩ := h
  cases a1 with
  | node g1 =>
    dsimp only at h
    rw [Option.bind_eq_some] at h
    obtain ⟨a2, ha2, h⟩ := h
    cases a2 with
    | node g2 =>
      dsimp only at h
      by_cases hgi : (O.isGetitem g1 && O.isGetitem g2) = true
      on_goal 2 =>
        rw [if_pos (by revert hgi; cases O.isGetitem g1 <;> cases O.isGetitem g2 <;> decide)] at h
        cases Option.some.inj h; cases hv
      rw [if_neg (by simp [hgi]), Option.bind_eq_some] at h
      obtain ⟨cq, hcq, h⟩ := h
      by_cases hc : O.isQparam cq = true
      on_goal 2 => rw [if_pos (by simpa using hc)] at h; cases Option.some.inj h; cases hv
      rw [if_neg (by simp [hc])] at h
      cases Option.some.inj h
      simp only [Bool.and_eq_true] at hgi
      exact ⟨dqa, qa, g1, g2, cq, hdqa, hd, hqa, hq, ha1, ha2, hgi.1, hgi.2, hcq, hc, rfl⟩
    | _ => cases Option.some.inj h; cases hv
  | _ => cases Option.some.inj h; cases hv

theorem overwritePrecision_fst_of_ne_fp32 {b : Bool} {p : ConfigPrecisionType}
    (hp : overwritePrecision O cfg g n = some (b, p)) (hq : p ≠ .fp32) : b = false := by
  unfold overwritePrecision at hp
  obtain ⟨q, -, hq'⟩ := Option.map_eq_some'.1 hp
  cases b
  · rfl
  · have h := @overwrite_fst cfg.enabledPrecisionTypes q
    rw [hq'] at h
    exact absurd (h rfl) hq

end Roles

/-- Where `get_deps` resolves directly under static quantization, a valid answer holds
the activation's dequantize node and a quantize node on the output: the node's sole user,
or the sole user of a fused activation the answer holds too. -/
theorem getDeps_valid_staticQuant (O : Oracles) (cfg : GEMMConfig) (n : Node) (s : State)
    (hP : srcPartitionFor O cfg n s.graph = none) {b : Bool}
    (hp : overwritePrecision O cfg s.graph n = some (b, .staticQuant)) {D : List Node}
    (hv : (getDeps O cfg n s).value = some (true, D)) :
    (∃ dqa, inputNode s.graph n cfg.actIdx = some dqa ∧ O.isDequant dqa = true ∧ dqa ∈ D) ∧
    ∃ q, O.isQuant q = true ∧ q ∈ D ∧ (soleUser (s.graph.node n).users = some q ∨
      ∃ a, soleUser (s.graph.node n).users = some a ∧ isFusedAct O cfg s.graph a = true ∧
        a ∈ D ∧ (soleUser (s.graph.node a).users).getD a = q) := by
  rw [getDeps_value, depsOf, hP] at hv
  obtain ⟨_, _, act, -, -, ha, -, -, hav, hov, hD⟩ :=
    resolveDeps_roles_of_valid O cfg s.graph n hp hv
  obtain ⟨dqa, hdqa, hd, hact⟩ := getActDeps_valid_staticQuant O cfg s.graph n ha hav
  obtain ⟨q, hq, hmem, hout⟩ := getOutputDeps_valid_staticQuant O cfg s.graph n hov
  refine ⟨⟨dqa, hdqa, hd, by simp [hD, hact]⟩, q, hq, by simp [hD, hmem], ?_⟩
  exact hout.imp_right fun ⟨a, h₁, h₂, h₃, h₄⟩ =>
    ⟨a, h₁, h₂, by simp [hD, h₃], h₄⟩

theorem getDeps_valid_staticQuant_quantizedGemms :
    (∃ dqa, inputNode quantizedGemmsGraph 6 0 = some dqa ∧
      quantizedGemmsOracles.isDequant dqa = true ∧ dqa ∈ [5, 4, 3, 2, 8]) ∧
    ∃ q, quantizedGemmsOracles.isQuant q = true ∧ q ∈ [5, 4, 3, 2, 8] ∧
      (soleUser (quantizedGemmsGraph.node 6).users = some q ∨
        ∃ a, soleUser (quantizedGemmsGraph.node 6).users = some a ∧
          isFusedAct quantizedGemmsOracles
            (linearConfig ⟨[.fp32, .staticQuant, .dynamicQuant], false, fun _ => true⟩)
            quantizedGemmsGraph a = true ∧
          a ∈ [5, 4, 3, 2, 8] ∧ (soleUser (quantizedGemmsGraph.node a).users).getD a = q) :=
  getDeps_valid_staticQuant quantizedGemmsOracles
    (linearConfig ⟨[.fp32, .staticQuant, .dynamicQuant], false, fun _ => true⟩) 6
    ⟨quantizedGemmsGraph, ∅⟩ rfl (b := false) (by decide) (by decide)

/-- Where `get_deps` resolves directly under dynamic quantization, a valid answer holds the
activation's quantization chain down to `choose_qparams`, and the weight's dequantize node
is not per-tensor. -/
theorem getDeps_valid_dynamicQuant (O : Oracles) (cfg : GEMMConfig) (n : Node) (s : State)
    (hP : srcPartitionFor O cfg n s.graph = none) {b : Bool}
    (hp : overwritePrecision O cfg s.graph n = some (b, .dynamicQuant)) {D : List Node}
    (hv : (getDeps O cfg n s).value = some (true, D)) :
    (∀ dq, inputNode s.graph n cfg.weightIdx = some dq → O.isPerTensor dq = false) ∧
    ∃ dqa qa g1 g2 cq, inputNode s.graph n cfg.actIdx = some dqa ∧ O.isDequant dqa = true ∧
      inputNode s.graph dqa 0 = some qa ∧ O.isQuant qa = true ∧
      (if O.isAffineQdq qa then O.extractQdqAffineOpArgsForDecomposedOps qa
        else (s.graph.node qa).args).get? 1 = some (.node g1) ∧
      (if O.isAffineQdq qa then O.extractQdqAffineOpArgsForDecomposedOps qa
        else (s.graph.node qa).args).get? 2 = some (.node g2) ∧
      O.isGetitem g1 = true ∧ O.isGetitem g2 = true ∧ inputNode s.graph g1 0 = some cq ∧
      O.isQparam cq = true ∧ ∀ m ∈ [dqa, qa, g1, g2, cq], m ∈ D := by
  rw [getDeps_value, depsOf, hP] at hv
  obtain ⟨_, weight, act, -, hw, ha, -, hwv, hav, -, hD⟩ :=
    resolveDeps_roles_of_valid O cfg s.graph n hp hv
  have hb := overwritePrecision_fst_of_ne_fp32 O cfg s.graph n hp (by decide)
  rw [getWeightDeps_eq_gemm O cfg s.graph n hp (.inl (forcesNonStatic_of_ne (by decide)))
    (.inl hb)] at hw
  obtain ⟨_, -, -, hin⟩ := gemmWeightDeps_valid O cfg s.graph n hw hwv
  refine ⟨fun dq hdq => ?_, ?_⟩
  · rcases hin with ⟨hp', -⟩ | ⟨dq', hdq', -, -, -, hpt⟩
    · cases hp'
    · cases hdq.symm.trans hdq'
      exact hpt rfl
  obtain ⟨dqa, qa, g1, g2, cq, h₁, h₂, h₃, h₄, h₅, h₆, h₇, h₈, h₉, h₁₀, hact⟩ :=
    getActDeps_valid_dynamicQuant O cfg s.graph n ha hav
  exact ⟨dqa, qa, g1, g2, cq, h₁, h₂, h₃, h₄, h₅, h₆, h₇, h₈, h₉, h₁₀,
    fun m hm => by rw [← hact] at hm; simp [hD, hm]⟩

/-- A dynamically quantized linear with a per-channel weight: `x`, `choose_qparams(x)`,
its two getitems, `quantize(x, scale, zp)`, `dequantize`, `w`, `dequantize_per_channel(w,
w_scales, w_zp)`, `w_scales`, `w_zp`, `b`, `linear`, `output`. -/
def dynamicQuantLinearGraph : Graph := Graph.ofList 9
  [⟨.placeholder, "x", [], {1, 4}⟩,
   ⟨.callFunction, "choose_qparams.tensor", [.node 0], {2, 3}⟩,
   ⟨.callFunction, "getitem", [.node 1, .int 0], {4, 5}⟩,
   ⟨.callFunction, "getitem", [.node 1, .int 1], {4, 5}⟩,
   ⟨.callFunction, "quantize_per_tensor.tensor", [.node 0, .node 2, .node 3], {5}⟩,
   ⟨.callFunction, "dequantize_per_tensor.tensor", [.node 4, .node 2, .node 3], {11}⟩,
   ⟨.placeholder, "w", [], {7}⟩,
   ⟨.callFunction, "dequantize_per_channel.default", [.node 6, .node 8, .node 9], {11}⟩,
   ⟨.placeholder, "w_scales", [], {7}⟩,
   ⟨.placeholder, "w_zp", [], {7}⟩,
   ⟨.placeholder, "b", [], {11}⟩,
   ⟨.callFunction, "linear.default", [.node 5, .node 7, .node 10], {12}⟩,
   ⟨.output, "output", [.node 11], ∅⟩]

def dynamicQuantOracles : Oracles :=
  { Oracles.listing [4] [5, 7] [] [6, 8, 9, 10] [] with
    isDynamicQdq := fun m => m == 5
    isPerChannel := fun m => m == 7
    isQparam := fun m => m == 1
    isGetitem := fun m => m == 2 || m == 3 }

theorem getDeps_valid_dynamicQuant_dynamicQuantLinear :
    (∀ dq, inputNode dynamicQuantLinearGraph 11 1 = some dq →
      dynamicQuantOracles.isPerTensor dq = false) ∧
    ∃ dqa qa g1 g2 cq, inputNode dynamicQuantLinearGraph 11 0 = some dqa ∧
      dynamicQuantOracles.isDequant dqa = true ∧
      inputNode dynamicQuantLinearGraph dqa 0 = some qa ∧ dynamicQuantOracles.isQuant qa = true ∧
      (if dynamicQuantOracles.isAffineQdq qa then
          dynamicQuantOracles.extractQdqAffineOpArgsForDecomposedOps qa
        else (dynamicQuantLinearGraph.node qa).args).get? 1 = some (.node g1) ∧
      (if dynamicQuantOracles.isAffineQdq qa then
          dynamicQuantOracles.extractQdqAffineOpArgsForDecomposedOps qa
        else (dynamicQuantLinearGraph.node qa).args).get? 2 = some (.node g2) ∧
      dynamicQuantOracles.isGetitem g1 = true ∧ dynamicQuantOracles.isGetitem g2 = true ∧
      inputNode dynamicQuantLinearGraph g1 0 = some cq ∧ dynamicQuantOracles.isQparam cq = true ∧
      ∀ m ∈ [dqa, qa, g1, g2, cq], m ∈ [10, 7, 6, 8, 9, 5, 4, 2, 3, 1] :=
  getDeps_valid_dynamicQuant dynamicQuantOracles
    (linearConfig ⟨[.fp32, .staticQuant, .dynamicQuant], false, fun _ => true⟩) 11
    ⟨dynamicQuantLinearGraph, ∅⟩ rfl (b := false) (by decide) (by decide)

end XnnpackGemm
