import XnnpackGemm.Session

/-!
# How often a node occurs in its cluster

`get_node_and_deps` lists the node and then the deps `get_deps` returns. Resolved
directly, the deps are operands of the node with their quantization chains, which come
before it in a torch.fx graph, and its output chain, which comes after it, so the node
occurs once. On the source-partition path the deps are deduplicated, but with the force
flag off they hold every node of the partition, the node itself among them.
-/

namespace XnnpackGemm

/-- Every node of a resolver's answer satisfies `p`; an exception answers nothing. -/
def AllNodes (p : Node → Prop) (o : Option Deps) : Prop :=
  ∀ d, o = some d → ∀ m ∈ d.nodes, p m

/-! One lemma per construct of the resolvers' `do` blocks, so that a proof about a
resolver follows its code. -/

namespace AllNodes

variable {p : Node → Prop}

theorem invalid (w : String) : AllNodes p (some (.invalid w)) := by
  rintro d ⟨⟩ m hm; simp at hm

theorem valid {l : List Node} (h : ∀ m ∈ l, p m) : AllNodes p (some (.valid l)) := by
  rintro d ⟨⟩; exact h

theorem bind {α : Type} {x : Option α} {f : α → Option Deps}
    (h : ∀ a, x = some a → AllNodes p (f a)) : AllNodes p (x.bind f) := by
  intro d hd
  obtain ⟨a, ha, hd⟩ := Option.bind_eq_some.mp hd
  exact h a ha d hd

theorem ite {c : Prop} [Decidable c] {a b : Option Deps} (ha : c → AllNodes p a)
    (hb : ¬c → AllNodes p b) : AllNodes p (if c then a else b) := by
  split
  · exact ha ‹_›
  · exact hb ‹_›

theorem unlessForced {inner : Option Deps} (cfg : GEMMConfig) (precision : ConfigPrecisionType)
    (h : AllNodes p inner) : AllNodes p (XnnpackGemm.unlessForced cfg precision inner) :=
  .ite (fun _ => .valid (by simp)) fun _ => h

end AllNodes

section Ancestors

variable {g : Graph} (hg : g.InputsBefore) (O : Oracles) (cfg : GEMMConfig) (n : Node)
  (p : ConfigPrecisionType)
include hg

theorem inputNode_lt {k i m : Node} (h : inputNode g k i = some m) : m < k :=
  hg m k (mem_allInputNodes.mpr (List.get?_mem (inputNode_eq_some.mp h)))

theorem getBiasDeps_lt : AllNodes (· < n) (getBiasDeps O cfg g n p) := by
  unfold getBiasDeps
  refine AllNodes.unlessForced cfg p ?_
  simp only [Option.bind_eq_bind, Option.pure_def, Option.some_bind]
  split
  · refine .ite (fun _ => .bind fun a ha =>
      .ite (fun _ => .bind fun b hb =>
        .ite (fun _ => .invalid _) fun _ => .valid ?_)
      fun _ => .valid (by simp))
      fun _ => .valid (by simp)
    rw [Arg.node?_eq_some] at hb
    subst hb
    simpa using inputNode_lt hg (inputNode_eq_some.mpr ha)
  · exact .valid (by simp)

theorem gemmWeightDeps_lt : AllNodes (· < n) (gemmWeightDeps O cfg g n p) := by
  unfold gemmWeightDeps
  simp only [Option.bind_eq_bind, Option.pure_def, Option.some_bind]
  refine .ite
    (fun _ => .bind fun w hw => .ite (fun _ => .invalid _) fun _ => .valid ?_)
    (fun _ => .bind fun dq hdq => .ite (fun _ => .invalid _) fun _ => .bind fun w hw => ?_)
  · simpa using inputNode_lt hg hw
  · have hdq := inputNode_lt hg hdq
    have hw := inputNode_lt hg hw
    refine .ite (fun _ => .invalid _) fun _ =>
      .ite (fun _ => .invalid _) fun _ =>
      .ite (fun _ => .ite (fun _ => .invalid _) fun _ => .valid ?_) fun _ => .valid ?_
    · intro m hm
      simp only [List.cons_append, List.singleton_append, List.mem_cons] at hm
      rcases hm with rfl | rfl | hm
      · exact hdq
      · exact hw.trans hdq
      · exact (hg m dq (List.mem_of_mem_drop (List.mem_of_mem_take hm))).trans hdq
    · simp only [List.mem_cons, List.mem_singleton, List.not_mem_nil, or_false]
      rintro m (rfl | rfl)
      · exact hdq
      · exact hw.trans hdq

theorem getWeightDeps_lt : AllNodes (· < n) (getWeightDeps O cfg g n p) := by
  have hw := gemmWeightDeps_lt hg O cfg n p
  unfold getWeightDeps mmWeightDeps linearWeightDeps addmmWeightDeps
  split
  · refine AllNodes.unlessForced cfg p ?_
    simp only [Option.bind_eq_bind]
    exact .bind fun r _ => .ite (fun _ => .valid (by simp)) fun _ => hw
  · exact hw
  · exact AllNodes.unlessForced cfg p hw
  · exact .unlessForced cfg p (.unlessForced cfg p hw)

theorem getActDeps_lt
    (hx : ∀ q m, Arg.node m ∈ O.extractQdqAffineOpArgsForDecomposedOps q → m < q) :
    AllNodes (· < n) (getActDeps O cfg g n p) := by
  unfold getActDeps
  simp only [Option.bind_eq_bind, Option.pure_def, Option.some_bind]
  refine .ite (fun _ => .valid (by simp)) fun _ =>
    .bind fun dq hdq => .ite (fun _ => .invalid _) fun _ =>
    .ite (fun _ => .valid ?_) fun _ =>
    .bind fun q hq => .ite (fun _ => .invalid _) fun _ => ?_
  · simpa using inputNode_lt hg hdq
  · have hdq := inputNode_lt hg hdq
    have hq := inputNode_lt hg hq
    have hargs : ∀ {i m}, (if O.isAffineQdq q then O.extractQdqAffineOpArgsForDecomposedOps q
        else (g.node q).args).get? i = some (.node m) → m < q := fun h => by
      have hm := List.get?_mem h
      split at hm
      · exact hx q _ hm
      · exact hg _ q (mem_allInputNodes.mpr hm)
    refine .bind fun a₁ h₁ => ?_
    split
    · refine .bind fun a₂ h₂ => ?_
      split
      · refine .ite (fun _ => .invalid _) fun _ => .bind fun ch hch =>
          .ite (fun _ => .invalid _) fun _ => .valid ?_
        have h₁ := hargs h₁
        have h₂ := hargs h₂
        have hch := inputNode_lt hg hch
        simp only [List.mem_cons, List.not_mem_nil, or_false]
        rintro m (rfl | rfl | rfl | rfl | rfl)
        · exact hdq
        · exact hq.trans hdq
        · exact (h₁.trans hq).trans hdq
        · exact (h₂.trans hq).trans hdq
        · exact ((hch.trans h₁).trans hq).trans hdq
      · exact .invalid _
    · exact .invalid _

end Ancestors

section Descendants

variable {g : Graph} (hc : g.Consistent) (hg : g.InputsBefore) (O : Oracles) (cfg : GEMMConfig)
  (n : Node) (p : ConfigPrecisionType)
include hc hg

theorem getOutputDeps_gt : ∀ m ∈ (getOutputDeps O cfg g n p).nodes, n < m := by
  have hu : ∀ {k u}, soleUser (g.node k).users = some u → k < u := fun h =>
    g.lt_of_mem_users hc hg (by rw [soleUser_eq_some.mp h]; exact Finset.mem_singleton_self _)
  unfold getOutputDeps
  split
  · split
    · simp
    · rename_i u hsu
      have hv : n < (soleUser (g.node u).users).getD u := by
        cases h : soleUser (g.node u).users with
        | none => exact hu hsu
        | some v => exact (hu hsu).trans (hu h)
      cases isFusedAct O cfg g u <;> simp only [Bool.false_eq_true, if_false, if_true] <;>
        split <;> simp [hu hsu, hv]
  · split
    · split <;> simp [hu ‹_›]
    · simp
  · simp

end Descendants

/-- Resolved directly, a node is not among its own deps. -/
theorem resolveDeps_not_mem {O : Oracles} {cfg : GEMMConfig} {g : Graph} {n : Node}
    (hc : g.Consistent) (hg : g.InputsBefore)
    (hx : ∀ q m, Arg.node m ∈ O.extractQdqAffineOpArgsForDecomposedOps q → m < q)
    {v : Bool} {D : List Node} (h : resolveDeps O cfg g n = some (v, D)) : n ∉ D := by
  rw [resolveDeps_eq] at h
  obtain ⟨r, -, h⟩ := Option.bind_eq_some.mp h
  obtain ⟨b, hb, h⟩ := Option.bind_eq_some.mp h
  obtain ⟨w, hw, h⟩ := Option.bind_eq_some.mp h
  obtain ⟨a, ha, h⟩ := Option.map_eq_some'.mp h
  rw [← (Prod.mk.inj h).2]
  simp only [List.mem_append, not_or]
  exact ⟨⟨⟨fun hm => lt_irrefl n (getBiasDeps_lt hg O cfg n r.2 b hb n hm),
    fun hm => lt_irrefl n (getWeightDeps_lt hg O cfg n r.2 w hw n hm)⟩,
    fun hm => lt_irrefl n (getActDeps_lt hg O cfg n r.2 hx a ha n hm)⟩,
    fun hm => lt_irrefl n (getOutputDeps_gt hc hg O cfg n r.2 n hm)⟩

/-- The partition `AddmmConfig.get_deps` adapts a node to contains it. -/
theorem findSrcPartition_mem {n : Node} {g : Graph} {ps : SrcPartitions} {P : SourcePartition}
    (h : findSrcPartition n g ps = some P) : n ∈ P.nodes := by
  suffices ∀ (init : Option SourcePartition), (∀ Q, init = some Q → n ∈ Q.nodes) →
      ∀ Q, ps.partitions.foldl (fun found P =>
        if ps.graphId = g.id ∧ n ∈ P.nodes then some P else found) init = some Q →
        n ∈ Q.nodes from this none (fun _ h => nomatch h) P h
  clear h
  induction ps.partitions with
  | nil => exact fun init hi => hi
  | cons P' ps ih =>
    refine fun init hi => ih _ fun Q hQ => ?_
    dsimp only at hQ
    split at hQ
    · cases hQ; exact ‹_ ∧ _›.2
    · exact hi Q hQ

theorem srcPartitionFor_mem {O : Oracles} {cfg : GEMMConfig} {n : Node} {g : Graph}
    {P : SourcePartition} (h : srcPartitionFor O cfg n g = some P) : n ∈ P.nodes := by
  unfold srcPartitionFor at h
  split at h <;> first | exact findSrcPartition_mem h | nomatch h

theorem nodup_combineSrcPartition (cfg : GEMMConfig) (P : SourcePartition) (D : List Node) :
    (combineSrcPartition cfg P D).Nodup := by
  unfold combineSrcPartition; split <;> exact List.nodup_dedup _

/-- A valid answer of the source-partition path is the inner deps combined with the
partition. -/
theorem srcPartitionDeps_combined {O : Oracles} {cfg : GEMMConfig} {n : Node}
    {P : SourcePartition} {g : Graph} {D : List Node}
    (h : srcPartitionDeps O cfg n P g = some (true, D)) :
    ∃ D', D = combineSrcPartition cfg P D' := by
  obtain ⟨fake, out, hf, hcs⟩ := srcPartitionDeps_adapted cfg h
  simp only [srcPartitionDeps, hf, hcs, Option.some_bind, Option.map_eq_some'] at h
  obtain ⟨r, -, hr⟩ := h
  exact ⟨r.2, (Prod.mk.inj hr).2.symm⟩

theorem depsOf_of_checkOf {O : Oracles} {cfg : GEMMConfig} {n : Node} {g : Graph}
    (h : checkOf O cfg n g = some true) : ∃ D, depsOf O cfg n g = some (true, D) := by
  unfold checkOf at h
  split at h
  · cases h
  · rcases hd : depsOf O cfg n g with _ | ⟨_ | _, D⟩
    · rw [hd] at h; split at h <;> simp_all
    · rw [hd] at h; split at h <;> simp_all
    · exact ⟨D, rfl⟩

/-- When `check_constraints` holds, `get_node_and_deps` lists the node and then deps `D`.
Resolved directly, in a torch.fx graph whose inputs come first, the node occurs once. On
the source-partition path `D` is duplicate-free, and with the force flag off it holds the
partition, so the node occurs twice. -/
theorem getNodeAndDeps_occurrences (O : Oracles) (cfg : GEMMConfig) (n : Node) (s : State)
    (hv : (checkConstraints O cfg n s).value = some true) :
    ∃ D, (getNodeAndDeps O cfg n s).value = some (n :: D) ∧
      (srcPartitionFor O cfg n s.graph = none → s.graph.Consistent → s.graph.InputsBefore →
        (∀ q m, Arg.node m ∈ O.extractQdqAffineOpArgsForDecomposedOps q → m < q) →
          (n :: D).count n = 1) ∧
      (∀ P, srcPartitionFor O cfg n s.graph = some P → D.Nodup ∧
        (cfg.forceNonStaticWeightsForF32Linear = false → (n :: D).count n = 2)) := by
  rw [checkConstraints_value] at hv
  obtain ⟨D, hD⟩ := depsOf_of_checkOf hv
  refine ⟨D, by simp [getNodeAndDeps, getDeps_value, hD], fun hP hc hg hx => ?_, fun P hP => ?_⟩
  · rw [depsOf, hP] at hD
    rw [List.count_cons_self, List.count_eq_zero_of_not_mem (resolveDeps_not_mem hc hg hx hD)]
  · rw [depsOf, hP] at hD
    obtain ⟨D', rfl⟩ := srcPartitionDeps_combined hD
    have hnd := nodup_combineSrcPartition cfg P D'
    refine ⟨hnd, fun hf => ?_⟩
    rw [List.count_cons_self, List.count_eq_one_of_mem hnd
      (mem_combineSrcPartition_of_union cfg hf (.inr (srcPartitionFor_mem hP)))]

theorem getNodeAndDeps_occurrences_fp32Linear :
    let cfg := addmmConfig ⟨[.fp32], false, fun _ => true⟩
    (checkConstraints fp32LinearOracles cfg 4 ⟨fp32LinearGraph, ∅⟩).value = some true ∧
    ∃ D, (getNodeAndDeps fp32LinearOracles cfg 4 ⟨fp32LinearGraph, ∅⟩).value = some (4 :: D) ∧
      (srcPartitionFor fp32LinearOracles cfg 4 fp32LinearGraph = none →
        fp32LinearGraph.Consistent → fp32LinearGraph.InputsBefore →
        (∀ q m, Arg.node m ∈ fp32LinearOracles.extractQdqAffineOpArgsForDecomposedOps q → m < q) →
          (4 :: D).count 4 = 1) ∧
      (∀ P, srcPartitionFor fp32LinearOracles cfg 4 fp32LinearGraph = some P → D.Nodup ∧
        (cfg.forceNonStaticWeightsForF32Linear = false → (4 :: D).count 4 = 2)) :=
  ⟨by decide, getNodeAndDeps_occurrences fp32LinearOracles _ 4 ⟨fp32LinearGraph, ∅⟩ (by decide)⟩

/-- The adapted addmm of the FP32 linear passes `check_constraints`, and its cluster lists
it twice: first, and again among the partition's nodes. -/
theorem getNodeAndDeps_repeats_node :
    let cfg := addmmConfig ⟨[.fp32], false, fun _ => true⟩
    (checkConstraints fp32LinearOracles cfg 4 ⟨fp32LinearGraph, ∅⟩).value = some true ∧
    (getNodeAndDeps fp32LinearOracles cfg 4 ⟨fp32LinearGraph, ∅⟩).value =
      some [4, 2, 1, 3, 4] := by
  decide

/-- `w`, `dqw = dequantize(w)`, `b`, `linear(dqw, dqw, b)`, `q`, `output`: the dequantized
weight is also the activation. -/
def sharedDequantGraph : Graph := Graph.ofList 10
  [⟨.placeholder, "w", [], {1}⟩,
   ⟨.callFunction, "dequantize_per_tensor.default", [.node 0], {3}⟩,
   ⟨.placeholder, "b", [], {3}⟩,
   ⟨.callFunction, "linear.default", [.node 1, .node 1, .node 2], {4}⟩,
   ⟨.callFunction, "quantize_per_tensor.default", [.node 3], {5}⟩,
   ⟨.output, "output", [.node 4], ∅⟩]

/-- On the direct path, in a topologically sorted torch.fx graph, the cluster holds the
linear once but `dqw` twice: the weight resolver and the activation resolver both return
it, and the role lists are chained without deduplication. -/
theorem getNodeAndDeps_repeats_dep :
    let O := Oracles.listing [4] [1] [1] [0, 2] []
    let cfg := linearConfig ⟨[.staticQuant], false, fun _ => true⟩
    sharedDequantGraph.Consistent ∧ sharedDequantGraph.InputsBefore ∧
    (checkConstraints O cfg 3 ⟨sharedDequantGraph, ∅⟩).value = some true ∧
    (getNodeAndDeps O cfg 3 ⟨sharedDequantGraph, ∅⟩).value = some [3, 1, 0, 1, 4] :=
  ⟨Graph.ofList_consistent (by decide), Graph.ofList_inputsBefore (by decide), by decide,
    by decide⟩

end XnnpackGemm
