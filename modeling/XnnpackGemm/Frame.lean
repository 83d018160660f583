import XnnpackGemm.GetDeps

/-!
# What a call writes

The role resolvers are functions of the graph, so `GEMMConfig.get_deps` writes only
tags. The only graph writes are the argument and user swap of the source-partition
adaptation, which puts the graph back whenever the inner `get_deps` returns; when it
raises, the faked arguments and users stay.
-/

namespace XnnpackGemm

section Frame

variable (O : Oracles) (cfg : GEMMConfig) (n : Node) (s : State)

@[simp] theorem gemmGetDeps_value : (gemmGetDeps O cfg n s).1 = resolveDeps O cfg s.graph n := by
  unfold gemmGetDeps; split <;> simp_all

@[simp] theorem gemmGetDeps_graph : (gemmGetDeps O cfg n s).2.graph = s.graph := by
  unfold gemmGetDeps; split <;> rfl

theorem gemmGetDeps_tagged : (gemmGetDeps O cfg n s).2.tagged =
    tagImplicitQDQ O (((resolveDeps O cfg s.graph n).map Prod.snd).getD []) s.tagged := by
  unfold gemmGetDeps; split <;> simp_all [tagImplicitQDQ]

/-- `GEMMConfig.get_deps` raises with the state untouched, or tags the q/dq nodes among
the deps it returns, whatever their validity. -/
theorem gemmGetDeps_of_none {s₂ : State} (h : gemmGetDeps O cfg n s = (none, s₂)) :
    s₂ = s := by
  unfold gemmGetDeps at h; split at h <;> simp_all

theorem gemmGetDeps_of_some {v : Bool} {D : List Node} {s₂ : State}
    (h : gemmGetDeps O cfg n s = (some (v, D), s₂)) :
    s₂ = ⟨s.graph, tagImplicitQDQ O D s.tagged⟩ := by
  unfold gemmGetDeps at h
  split at h
  · simp at h
  · obtain ⟨⟨-, rfl⟩, rfl⟩ := by simpa using h
    rfl

theorem gemmGetDeps_cases :
    ((gemmGetDeps O cfg n s).1 = none ∧ (gemmGetDeps O cfg n s).2 = s) ∨
    ∃ v D, (gemmGetDeps O cfg n s).1 = some (v, D) ∧
      (gemmGetDeps O cfg n s).2 = ⟨s.graph, tagImplicitQDQ O D s.tagged⟩ := by
  rcases h : gemmGetDeps O cfg n s with ⟨_ | ⟨v, D⟩, s₂⟩
  · exact .inl ⟨rfl, gemmGetDeps_of_none O cfg n s h⟩
  · exact .inr ⟨v, D, rfl, gemmGetDeps_of_some O cfg n s h⟩

end Frame

section Restore

variable (O : Oracles) (cfg : GEMMConfig) (n : Node) (s : State)
  (hc : ∀ m, n ∈ (s.graph.node m).users ↔ m ∈ allInputNodes (s.graph.node n).args)
include hc

/-- Every exit of the adaptation: a raise or a rejection before the swap leaves the state
as it was, a return of the inner `get_deps` puts the graph back (users of `n` agreeing
with its inputs), and a raise of the inner `get_deps` leaves the faked arguments and
users installed. -/
theorem getDepsFromSrcPartition_exits (P : SourcePartition) :
    (getDepsFromSrcPartition O cfg n P s).2 = s ∨
    ((getDepsFromSrcPartition O cfg n P s).1.isSome ∧
      (getDepsFromSrcPartition O cfg n P s).2.graph = s.graph) ∨
    ∃ fake out, fakeArgs P s.graph (s.graph.node n).args = some fake ∧
      checkSrcPartition cfg P fake = some (some out) ∧
      resolveDeps O cfg (fakedGraph n s.graph fake out) n = none ∧
      getDepsFromSrcPartition O cfg n P s =
        (none, { s with graph := fakedGraph n s.graph fake out }) := by
  simp only [getDepsFromSrcPartition]
  cases fakeArgs P s.graph (s.graph.node n).args with
  | none => exact .inl rfl
  | some fake =>
    dsimp only
    rcases ho : checkSrcPartition cfg P fake with _ | _ | out
    · exact .inl rfl
    · exact .inl rfl
    · dsimp only
      rcases h : gemmGetDeps O cfg n _ with ⟨_ | ⟨v, d⟩, s₂⟩
      · have hr := gemmGetDeps_value O cfg n { s with graph := fakedGraph n s.graph fake out }
        rw [h] at hr
        obtain rfl := gemmGetDeps_of_none O cfg n _ h
        exact .inr (.inr ⟨fake, out, rfl, ho, hr.symm, rfl⟩)
      · refine .inr (.inl ⟨rfl, ?_⟩)
        rw [gemmGetDeps_of_some O cfg n _ h]
        exact setArgs_setUsers_restore _ _ _ _ hc

/-- The swap is undone on every path that returns. -/
theorem getDepsFromSrcPartition_graph (P : SourcePartition) :
    (getDepsFromSrcPartition O cfg n P s).1 = none ∨
      (getDepsFromSrcPartition O cfg n P s).2.graph = s.graph := by
  rcases getDepsFromSrcPartition_exits O cfg n s hc P with h | ⟨-, h⟩ | ⟨_, _, -, -, -, h⟩
  · exact .inr (by rw [h])
  · exact .inr h
  · exact .inl (by rw [h])

theorem getDeps_graph : (getDeps O cfg n s).value = none ∨
    (getDeps O cfg n s).state.graph = s.graph := by
  obtain ⟨hv, hs⟩ := Prod.ext_iff.mp (getDeps_run O cfg n s)
  simp only at hv hs
  rw [hv, hs]
  cases srcPartitionFor O cfg n s.graph with
  | some P => exact getDepsFromSrcPartition_graph O cfg n s hc P
  | none => exact .inr (gemmGetDeps_graph O cfg n s)

end Restore

section Nodes

variable (O : Oracles) (cfg : GEMMConfig) (n : Node) (s : State) (m : Node)

/-- The adaptation keeps every node's opcode and target, and leaves a node's arguments
changed only at the addmm node and only when it raises. -/
theorem getDepsFromSrcPartition_node (P : SourcePartition) :
    ((getDepsFromSrcPartition O cfg n P s).2.graph.node m).op = (s.graph.node m).op ∧
    ((getDepsFromSrcPartition O cfg n P s).2.graph.node m).target = (s.graph.node m).target ∧
    (((getDepsFromSrcPartition O cfg n P s).2.graph.node m).args = (s.graph.node m).args ∨
      m = n ∧ (getDepsFromSrcPartition O cfg n P s).1 = none) := by
  simp only [getDepsFromSrcPartition]
  cases fakeArgs P s.graph (s.graph.node n).args with
  | none => exact ⟨rfl, rfl, .inl rfl⟩
  | some fake =>
    dsimp only
    rcases checkSrcPartition cfg P fake with _ | _ | out
    · exact ⟨rfl, rfl, .inl rfl⟩
    · exact ⟨rfl, rfl, .inl rfl⟩
    · dsimp only
      rcases h : gemmGetDeps O cfg n _ with ⟨_ | ⟨v, d⟩, s₂⟩
      · rw [gemmGetDeps_of_none O cfg n _ h]
        refine ⟨by simp [fakedGraph], by simp [fakedGraph], ?_⟩
        by_cases hm : m = n
        · exact .inr ⟨hm, rfl⟩
        · exact .inl (by simp [fakedGraph, setArgs_args_of_ne _ _ _ _ hm])
      · rw [gemmGetDeps_of_some O cfg n _ h]
        refine ⟨by simp [fakedGraph], by simp [fakedGraph], .inl ?_⟩
        by_cases hm : m = n
        · subst hm
          simp
        · simp [fakedGraph, setArgs_args_of_ne _ _ _ _ hm]

/-- `get_deps` keeps every node's opcode and target; a node's arguments change only when
an AddmmConfig or MMConfig call on that node raises. -/
theorem getDeps_node :
    ((getDeps O cfg n s).state.graph.node m).op = (s.graph.node m).op ∧
    ((getDeps O cfg n s).state.graph.node m).target = (s.graph.node m).target ∧
    (((getDeps O cfg n s).state.graph.node m).args = (s.graph.node m).args ∨
      m = n ∧ (cfg.kind = .addmm ∨ cfg.kind = .mm) ∧ (getDeps O cfg n s).value = none) := by
  obtain ⟨hv, hs⟩ := Prod.ext_iff.mp (getDeps_run O cfg n s)
  simp only at hv hs
  rw [hv, hs]
  cases hP : srcPartitionFor O cfg n s.graph with
  | some P =>
    have hk : cfg.kind = .addmm ∨ cfg.kind = .mm := by
      unfold srcPartitionFor at hP
      cases h : cfg.kind <;> simp [h] at hP ⊢
    obtain ⟨ho, ht, ha⟩ := getDepsFromSrcPartition_node O cfg n s m P
    exact ⟨ho, ht, ha.imp_right fun h => ⟨h.1, hk, h.2⟩⟩
  | none => simp only [gemmGetDeps_graph, true_or, and_self]

end Nodes

/-- Oracles for a hand-built program: the listed quantize, dequantize, per-tensor and
parameter nodes, the source partitions, and false for every other predicate. -/
def Oracles.listing (quant dequant perTensor params : List Node)
    (partitions : List SourcePartition) : Oracles where
  isDequant m := decide (m ∈ dequant)
  isQuant m := decide (m ∈ quant)
  isDynamicQdq _ := false
  isPerTensor m := decide (m ∈ perTensor)
  isPerChannel _ := false
  isPerChannelGroup _ := false
  isAffineQdq _ := false
  extractQdqAffineOpArgsForDecomposedOps _ := []
  isQparam _ := false
  isGetitem _ := false
  isParamNode m := decide (m ∈ params)
  isDepthwiseConv _ _ _ := false
  getShape _ := []
  fromWeights _ := none
  formatTargetName := id
  getSourcePartitions _ := partitions

/-- The `linear` source partition of a decomposed graph numbered as above: `permute`
and `addmm`, fed by `b`, `x` and the weight. -/
def linearPartition : SourcePartition := ⟨[3, 4], [2, 0, 1], [4]⟩

theorem mem_tagImplicitQDQ {O : Oracles} {D : List Node} {t : Finset Node} {m : Node} :
    m ∈ tagImplicitQDQ O D t ↔ m ∈ t ∨ m ∈ D ∧ O.isQdq m = true := by
  simp [tagImplicitQDQ]

/-- A call adds tags, and only to quantize and dequantize nodes. -/
def TagsGrowByQdq (O : Oracles) (t t' : Finset Node) : Prop :=
  t ⊆ t' ∧ ∀ m ∈ t', m ∈ t ∨ O.isQdq m = true

theorem TagsGrowByQdq.refl (O : Oracles) (t : Finset Node) : TagsGrowByQdq O t t :=
  ⟨subset_rfl, fun _ h => .inl h⟩

theorem tagsGrowByQdq_tagImplicitQDQ (O : Oracles) (D : List Node) (t : Finset Node) :
    TagsGrowByQdq O t (tagImplicitQDQ O D t) :=
  ⟨Finset.subset_union_left, fun _ h => (mem_tagImplicitQDQ.mp h).imp id And.right⟩

section Tags

variable (O : Oracles) (cfg : GEMMConfig) (n : Node) (s : State)

/-- `get_deps_from_src_partition` raises with the tags untouched, rejects the partition
with the state untouched, or returns the inner `get_deps`'s validity and its deps
combined with the partition, having tagged the q/dq nodes among those deps. -/
theorem getDepsFromSrcPartition_cases (P : SourcePartition) :
    ((getDepsFromSrcPartition O cfg n P s).1 = none ∧
      (getDepsFromSrcPartition O cfg n P s).2.tagged = s.tagged) ∨
    ((getDepsFromSrcPartition O cfg n P s).1 = some (false, []) ∧
      (getDepsFromSrcPartition O cfg n P s).2 = s) ∨
    ∃ v D, (getDepsFromSrcPartition O cfg n P s).1 = some (v, combineSrcPartition cfg P D) ∧
      (getDepsFromSrcPartition O cfg n P s).2.tagged = tagImplicitQDQ O D s.tagged := by
  simp only [getDepsFromSrcPartition]
  cases fakeArgs P s.graph (s.graph.node n).args with
  | none => exact .inl ⟨rfl, rfl⟩
  | some fake =>
    dsimp only
    rcases checkSrcPartition cfg P fake with _ | _ | out
    · exact .inl ⟨rfl, rfl⟩
    · exact .inr (.inl ⟨rfl, rfl⟩)
    · dsimp only
      rcases h : gemmGetDeps O cfg n _ with ⟨_ | ⟨v, D⟩, s₂⟩
      · exact .inl ⟨rfl, by rw [gemmGetDeps_of_none O cfg n _ h]⟩
      · exact .inr (.inr ⟨v, D, rfl, by rw [gemmGetDeps_of_some O cfg n _ h]⟩)

/-- What `get_deps` can do: raise or reject before resolving, with the tags as they were,
or return the inner resolution's validity and deps `D` (combined with the partition on
the source-partition path), having tagged the q/dq nodes of `D`. -/
theorem getDeps_cases :
    ((getDeps O cfg n s).value = none ∧ (getDeps O cfg n s).state.tagged = s.tagged) ∨
    ((getDeps O cfg n s).value = some (false, []) ∧
      (getDeps O cfg n s).state.tagged = s.tagged) ∨
    ∃ v D, (getDeps O cfg n s).state.tagged = tagImplicitQDQ O D s.tagged ∧
      (getDeps O cfg n s).value = some (v, match srcPartitionFor O cfg n s.graph with
        | some P => combineSrcPartition cfg P D
        | none => D) := by
  obtain ⟨hv, hs⟩ := Prod.ext_iff.mp (getDeps_run O cfg n s)
  simp only at hv hs
  rw [hv, hs]
  cases srcPartitionFor O cfg n s.graph with
  | some P =>
    rcases getDepsFromSrcPartition_cases O cfg n s P with h | h | ⟨v, D, h₁, h₂⟩
    · exact .inl h
    · exact .inr (.inl ⟨h.1, by rw [h.2]⟩)
    · exact .inr (.inr ⟨v, D, h₂, h₁⟩)
  | none =>
    rcases gemmGetDeps_cases O cfg n s with ⟨h₁, h₂⟩ | ⟨v, D, h₁, h₂⟩
    · exact .inl ⟨h₁, by rw [h₂]⟩
    · exact .inr (.inr ⟨v, D, by rw [h₂], h₁⟩)

theorem getDeps_tagsGrow : TagsGrowByQdq O s.tagged (getDeps O cfg n s).state.tagged := by
  rcases getDeps_cases O cfg n s with ⟨-, h⟩ | ⟨-, h⟩ | ⟨_, _, h, -⟩ <;> rw [h]
  · exact .refl O _
  · exact .refl O _
  · exact tagsGrowByQdq_tagImplicitQDQ O _ _

theorem checkConstraints_tagsGrow :
    TagsGrowByQdq O s.tagged (checkConstraints O cfg n s).state.tagged := by
  rw [checkConstraints_state]
  split
  · exact getDeps_tagsGrow O cfg n s
  · exact .refl O _

end Tags

/-- Whatever `get_deps` or `check_constraints` answers, the call leaves every tag in place
and tags only quantize and dequantize nodes; a rejection by the common constraints
changes no tag. -/
theorem getDeps_checkConstraints_tagsGrow (O : Oracles) (cfg : GEMMConfig) (n : Node)
    (s : State) :
    TagsGrowByQdq O s.tagged (getDeps O cfg n s).state.tagged ∧
    TagsGrowByQdq O s.tagged (checkConstraints O cfg n s).state.tagged ∧
    (cfg.checkCommonConstraints n = false →
      (checkConstraints O cfg n s).state.tagged = s.tagged) :=
  ⟨getDeps_tagsGrow O cfg n s, checkConstraints_tagsGrow O cfg n s,
    fun h => by rw [checkConstraints_state, h]; rfl⟩

theorem getDeps_checkConstraints_tagsGrow_on_reject :
    let cfg := linearConfig ⟨[.fp32], false, fun _ => false⟩
    cfg.checkCommonConstraints 0 = false ∧
      (checkConstraints (.listing [] [] [] [] []) cfg 0 ⟨Graph.ofList 0 [], {0}⟩).state.tagged =
        {0} :=
  ⟨rfl, (getDeps_checkConstraints_tagsGrow _ _ _ _).2.2 rfl⟩

/-- A statically quantized linear followed by a `relu` that is not requantized:
`x`, `qx`, `dqx`, `w`, `dqw`, `b`, `linear(dqx, dqw, b)`, `relu`, `output`. -/
def reluNotRequantizedGraph : Graph := Graph.ofList 3
  [⟨.placeholder, "x", [], {1}⟩,
   ⟨.callFunction, "quantize_per_tensor.default", [.node 0], {2}⟩,
   ⟨.callFunction, "dequantize_per_tensor.default", [.node 1], {6}⟩,
   ⟨.placeholder, "w", [], {4}⟩,
   ⟨.callFunction, "dequantize_per_tensor.default", [.node 3], {6}⟩,
   ⟨.placeholder, "b", [], {6}⟩,
   ⟨.callFunction, "linear.default", [.node 2, .node 4, .node 5], {7}⟩,
   ⟨.callFunction, "relu.default", [.node 6], {8}⟩,
   ⟨.output, "output", [.node 7], ∅⟩]

/-- The output resolver rejects the linear, but the weight and activation resolvers
succeeded and their dequantize nodes are tagged all the same. -/
theorem getDeps_rejected_tags_dequants :
    let O := Oracles.listing [1] [2, 4] [4] [3, 5] []
    let cfg := linearConfig ⟨[.staticQuant], false, fun _ => true⟩
    (getDeps O cfg 6 ⟨reluNotRequantizedGraph, ∅⟩).value = some (false, [5, 4, 3, 2]) ∧
    (getDeps O cfg 6 ⟨reluNotRequantizedGraph, ∅⟩).state.tagged = {2, 4} ∧
    (checkConstraints O cfg 6 ⟨reluNotRequantizedGraph, ∅⟩).value = some false ∧
    (checkConstraints O cfg 6 ⟨reluNotRequantizedGraph, ∅⟩).state.tagged = {2, 4} := by
  decide

/-- Every node `get_deps` tags is among the deps it returns, except on the
source-partition path under the force flag, whose intersection can drop tagged nodes;
every q/dq node it returns carries the tag, except nodes of the source partition that
the union adds. -/
theorem getDeps_tags_within_deps (O : Oracles) (cfg : GEMMConfig) (n : Node) (s : State)
    {v : Bool} {deps : List Node} (h : (getDeps O cfg n s).value = some (v, deps)) :
    (srcPartitionFor O cfg n s.graph = none ∨ cfg.forceNonStaticWeightsForF32Linear = false →
      ∀ m ∈ (getDeps O cfg n s).state.tagged, m ∉ s.tagged → m ∈ deps) ∧
    ∀ m ∈ deps, O.isQdq m = true → m ∈ (getDeps O cfg n s).state.tagged ∨
      ∃ P, srcPartitionFor O cfg n s.graph = some P ∧ m ∈ P.nodes := by
  rcases getDeps_cases O cfg n s with ⟨hv, -⟩ | ⟨hv, ht⟩ | ⟨v', D, ht, hv⟩
  · simp [hv] at h
  · obtain ⟨-, rfl⟩ := Prod.mk.inj (Option.some.inj (hv.symm.trans h))
    exact ⟨fun _ m hm hn => absurd (ht ▸ hm) hn, by simp⟩
  · rw [hv] at h
    rw [ht]
    have hD : ∀ m ∈ tagImplicitQDQ O D s.tagged, m ∉ s.tagged → m ∈ D := fun m hm hn =>
      ((mem_tagImplicitQDQ.mp hm).resolve_left hn).1
    have hq : ∀ m ∈ D, O.isQdq m = true → m ∈ tagImplicitQDQ O D s.tagged :=
      fun m hm hqm => mem_tagImplicitQDQ.mpr (.inr ⟨hm, hqm⟩)
    cases hp : srcPartitionFor O cfg n s.graph <;>
      simp only [hp, Option.some.injEq, Prod.mk.injEq] at h <;> obtain ⟨-, rfl⟩ := h
    case none.intro => exact ⟨fun _ => hD, fun m hm hqm => .inl (hq m hm hqm)⟩
    case some.intro P =>
      refine ⟨fun hf m hm hn => ?_, fun m hm hqm => ?_⟩
      · exact mem_combineSrcPartition_of_union cfg (hf.resolve_left (by simp)) (.inl (hD m hm hn))
      · rcases mem_of_mem_combineSrcPartition cfg hm with hm | hm
        · exact .inl (hq m hm hqm)
        · exact .inr ⟨P, rfl, hm⟩

/-- A linear whose int8 weight is dequantized inside the linear's own source partition,
as a weight-only quantized linear decomposes: `x`, `w_int8`, `dw = dequantize(w_int8)`,
`p = permute(dw)`, `b`, `addmm(b, x, p)`, `output`. -/
def weightOnlyQuantGraph : Graph := Graph.ofList 4
  [⟨.placeholder, "x", [], {5}⟩,
   ⟨.placeholder, "w_int8", [], {2}⟩,
   ⟨.callFunction, "dequantize_affine.default", [.node 1], {3}⟩,
   ⟨.callFunction, "permute_copy.default", [.node 2, .ints [1, 0]], {5}⟩,
   ⟨.placeholder, "b", [], {5}⟩,
   ⟨.callFunction, "addmm.default", [.node 4, .node 0, .node 3], {6}⟩,
   ⟨.output, "output", [.node 5], ∅⟩]

def weightOnlyQuantPartition : SourcePartition := ⟨[2, 3, 5], [4, 0, 1], [5]⟩

theorem getDeps_tags_within_deps_weightOnly :
    let O := Oracles.listing [] [2] [] [1, 4] [weightOnlyQuantPartition]
    let cfg := addmmConfig ⟨[.fp32], false, fun _ => true⟩
    (getDeps O cfg 5 ⟨weightOnlyQuantGraph, ∅⟩).value = some (true, [4, 1, 2, 3, 5]) ∧
    ((srcPartitionFor O cfg 5 weightOnlyQuantGraph = none ∨
        cfg.forceNonStaticWeightsForF32Linear = false →
      ∀ m ∈ (getDeps O cfg 5 ⟨weightOnlyQuantGraph, ∅⟩).state.tagged, m ∉ (∅ : Finset Node) →
        m ∈ [4, 1, 2, 3, 5]) ∧
    ∀ m ∈ [4, 1, 2, 3, 5], O.isQdq m = true →
      m ∈ (getDeps O cfg 5 ⟨weightOnlyQuantGraph, ∅⟩).state.tagged ∨
      ∃ P, srcPartitionFor O cfg 5 weightOnlyQuantGraph = some P ∧ m ∈ P.nodes) :=
  ⟨by decide, @getDeps_tags_within_deps (.listing [] [2] [] [1, 4] [weightOnlyQuantPartition])
    (addmmConfig ⟨[.fp32], false, fun _ => true⟩) 5 ⟨weightOnlyQuantGraph, ∅⟩ true
    [4, 1, 2, 3, 5] (by decide)⟩

/-- The union returns the partition's dequantize node, which the call never tags. -/
theorem getDeps_returns_untagged_dequant :
    let O := Oracles.listing [] [2] [] [1, 4] [weightOnlyQuantPartition]
    let o := getDeps O (addmmConfig ⟨[.fp32], false, fun _ => true⟩) 5 ⟨weightOnlyQuantGraph, ∅⟩
    o.value = some (true, [4, 1, 2, 3, 5]) ∧ O.isDequant 2 = true ∧ 2 ∉ o.state.tagged := by
  decide

end XnnpackGemm
